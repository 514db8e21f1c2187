/-
# `MachO.FixupWalks` — what the loader finds

The loader reads the table and follows the chains of the pages.  It visits
every slot once, and what it reads there is what was written: the target of
a rebase, and the import of a bind.  The addend of a bind has a field of its
own in the word, which is never written.

    Pointers.Encodable     the image can be described
    described_iff          the loader finds the pointers exactly then
-/
import Sld.MachO.FixupTables

namespace Sld.MachO

open Text.Reader (bind_eq_ok mem_of_mapM exists_mapM_eq_ok)
open Option (getD_some map_some)

variable {segment : DataSegment}

/-! ## The statement -/

/-- The loader visits each slot once and nothing else, and reads what the
pointer refers to. -/
structure Pointers.DescribedBy (image : Pointers segment) (table : FixupTable)
    (memory : ℕ → ℕ) : Prop where
  walk : ∃ visited, table.Walk memory visited ∧
    visited.Perm (image.pointers.map Pointer.address)
  decode : ∀ p ∈ image.pointers,
    table.decode (memory p.address) = p.target.fixup image.imports

/-- The link succeeds, and the loader finds the pointers whatever else is in
the memory. -/
def Pointers.Described (image : Pointers segment) (reservation : Reservation) : Prop :=
  ∃ words table, image.writeWords = .ok words ∧
    writeChainedFixupTable segment image.chainedRebases
      reservation.chainedFixupTableAllocationSize = .ok table ∧
    ∀ rest, image.DescribedBy table (memoryOf words rest)

/-- What a word has room for: a target within 64 GiB of the image, and no
addend. -/
def Target.Representable : Target → Prop
  | .rebase value => machoStartMemAddress ≤ value ∧ value < machoStartMemAddress + 2 ^ 36
  | .bind _ addend => addend = 0

/-- The slots of a page are congruent modulo four, their words have room for
what they refer to, and the table has room for the pages, the imports and
their names. -/
structure Pointers.Encodable (image : Pointers segment) (allocated : ℕ) : Prop where
  congruent : ∀ p ∈ image.pointers, ∀ q ∈ image.pointers,
    pageOf p.address = pageOf q.address → p.address % 4 = q.address % 4
  representable : ∀ p ∈ image.pointers, p.target.Representable
  pages : image.pointers ≠ [] → segment.pageCount ≤ 0xffff
  names : 1 + stringsSize image.imports.dropLast < 2 ^ 23
  fits : segment.importsOffset image.chainedRebases.slots + 4 * image.imports.length + 1 +
    stringsSize image.imports ≤ allocated

/-! ## Words -/

namespace Pointers

variable (image : Pointers segment)

theorem exists_writeWords : (∃ words, image.writeWords = .ok words) ↔
      ∀ p ∈ image.pointers, ∃ word, image.chainedRebases.word p = .ok word := by
  constructor
  · rintro ⟨words, hwords⟩ p hp
    obtain ⟨entry, -, hentry⟩ := (mem_of_mapM hwords).1 p hp
    obtain ⟨word, hword, -⟩ := bind_eq_ok.1 hentry
    exact ⟨word, hword⟩
  · intro h
    refine exists_mapM_eq_ok fun p hp => ?_
    obtain ⟨word, hword⟩ := h p hp
    exact ⟨(p.address, word), bind_eq_ok.2 ⟨word, hword, rfl⟩⟩

variable {p : Pointer} {words : List (ℕ × ℕ)}

theorem memoryOf_words (hwords : image.writeWords = .ok words)
    (rest : ℕ → ℕ) (hp : p ∈ image.pointers) :
    image.chainedRebases.word p = .ok (memoryOf words rest p.address) := by
  obtain ⟨hleft, hright⟩ := mem_of_mapM hwords
  unfold memoryOf
  cases hfound : words.find? fun word => word.1 = p.address with
  | none =>
    obtain ⟨entry, hentry, hword⟩ := hleft p hp
    obtain ⟨word, -, hok⟩ := bind_eq_ok.1 hword
    cases hok
    rw [List.find?_eq_none] at hfound
    exact absurd (decide_eq_true rfl) (hfound _ hentry)
  | some entry =>
    obtain ⟨q, hq, hentry⟩ := hright entry (List.mem_of_find?_eq_some hfound)
    obtain ⟨word, hword, hok⟩ := bind_eq_ok.1 hentry
    cases hok
    have haddr := List.find?_some hfound
    have hqp : q = p := image.eq_of_address_eq hq hp (of_decide_eq_true haddr)
    rw [← hqp]
    exact hword

/-! ## Strides -/

variable {place : ℕ}

theorem exists_nextStride {before after : List ℕ}
    (hslots : image.chainedRebases.slots = before ++ place :: after) :
    (∃ stride, image.chainedRebases.nextStride place = .ok stride) ↔
      ∀ next ∈ nextInPage place after, (next - place) % 4 = 0 := by
  simp only [nextStride_eq_ok image.slots_pairwise_lt hslots]
  exact ⟨fun ⟨_, h, _⟩ => h, fun h => ⟨_, h, rfl⟩⟩

theorem congruent_of_neighbours
    (h : ∀ before place after, image.chainedRebases.slots = before ++ place :: after →
      ∀ next ∈ nextInPage place after, (next - place) % 4 = 0) :
    image.chainedRebases.slots.Pairwise fun a b => a < b ∧ (pageOf a = pageOf b → a % 4 = b % 4) := by
  have htrans : IsTrans ℕ fun a b => a < b ∧ (pageOf a = pageOf b → a % 4 = b % 4) := by
    refine ⟨fun a b c hab hbc => ⟨hab.1.trans hbc.1, fun hac => ?_⟩⟩
    have hle : pageOf a ≤ pageOf b := Nat.div_le_div_right (Nat.le_of_lt hab.1)
    have hle' : pageOf b ≤ pageOf c := Nat.div_le_div_right (Nat.le_of_lt hbc.1)
    have hpage : pageOf a = pageOf b := by omega
    exact (hab.2 hpage).trans (hbc.2 (hpage.symm.trans hac))
  have hsorted := image.slots_pairwise_lt
  refine List.isChain_iff_pairwise.1 ?_
  rw [List.isChain_iff_forall_rel_of_append_cons_cons]
  intro a b before after hsplit
  have hlt : a < b := by
    rw [hsplit, List.pairwise_append] at hsorted
    exact List.rel_of_pairwise_cons hsorted.2.1 List.mem_cons_self
  refine ⟨hlt, fun hpage => ?_⟩
  have hnext : b ∈ nextInPage a (b :: after) := by
    unfold nextInPage
    rw [List.head?_cons, Option.filter_some_pos (by simpa using hpage.symm)]
    rfl
  have hfour := h before a (b :: after) hsplit b hnext
  omega

theorem stride_lt {before after : List ℕ} {stride : ℕ}
    (hslots : image.chainedRebases.slots = before ++ place :: after)
    (h : image.chainedRebases.nextStride place = .ok stride) : stride < 2 ^ 12 := by
  obtain ⟨-, rfl⟩ := (nextStride_eq_ok image.slots_pairwise_lt hslots).1 h
  cases hnext : nextInPage place after with
  | none => exact Nat.two_pow_pos 12
  | some next =>
    have hpage : pageOf next = pageOf place := by
      exact of_decide_eq_true (Option.filter_eq_some_iff.1 hnext).2
    unfold pageOf machoPageSize at *
    simp only [map_some, getD_some]
    omega

theorem exists_word (hp : p ∈ image.pointers) : (∃ word, image.chainedRebases.word p = .ok word) ↔
      (∃ stride, image.chainedRebases.nextStride p.address = .ok stride) ∧
        ∃ word, p.target.encode 0 = .ok word := by
  obtain ⟨before, after, hslots⟩ := List.append_of_mem (image.mem_slots.2 ⟨p, hp, rfl⟩)
  have hencode : ∀ stride, stride < 2 ^ 12 →
      ((∃ word, p.target.encode stride = .ok word) ↔ ∃ word, p.target.encode 0 = .ok word) := by
    intro stride hstride
    cases p.target with
    | rebase value =>
      simp only [Target.encode_rebase, hstride, true_and, exists_and_left, exists_eq,
        and_true, Nat.two_pow_pos]
    | bind index addend =>
      simp only [Target.encode_bind, hstride, true_and, exists_and_left, exists_eq,
        and_true, Nat.two_pow_pos]
  rw [image.word_eq hp]
  constructor
  · rintro ⟨word, hword⟩
    obtain ⟨stride, hstride, hok⟩ := bind_eq_ok.1 hword
    exact ⟨⟨stride, hstride⟩, (hencode stride (image.stride_lt hslots hstride)).1 ⟨word, hok⟩⟩
  · rintro ⟨⟨stride, hstride⟩, hok⟩
    obtain ⟨word, hword⟩ := (hencode stride (image.stride_lt hslots hstride)).2 hok
    exact ⟨word, bind_eq_ok.2 ⟨stride, hstride, hword⟩⟩

/-! ## Chains -/

theorem nextSlot_eq (hwords : image.writeWords = .ok words) (rest : ℕ → ℕ) {before after : List ℕ}
    (hslots : image.chainedRebases.slots = before ++ place :: after) :
    nextSlot (memoryOf words rest) place = nextInPage place after := by
  have hmem : place ∈ image.chainedRebases.slots := by
    rw [hslots]
    exact List.mem_append_right _ List.mem_cons_self
  obtain ⟨p, hp, rfl⟩ := image.mem_slots.1 hmem
  have hword := image.memoryOf_words hwords rest hp
  rw [image.word_eq hp] at hword
  obtain ⟨stride, hstride, hencode⟩ := bind_eq_ok.1 hword
  obtain ⟨hfour, heq⟩ := (nextStride_eq_ok image.slots_pairwise_lt hslots).1 hstride
  unfold nextSlot
  rw [Target.encode_next hencode, heq]
  cases hnext : nextInPage p.address after with
  | none => rfl
  | some next =>
    have hlt : p.address < next := by
      have hsorted := image.slots_pairwise_lt
      rw [hslots, List.pairwise_append] at hsorted
      have hhead := Option.eq_some_of_filter_eq_some hnext
      exact List.rel_of_pairwise_cons hsorted.2.1 (List.mem_of_mem_head? hhead)
    have hmod := hfour next hnext
    simp only [map_some, getD_some]
    rw [if_neg (by omega)]
    exact congrArg some (by omega)

end Pointers

variable {slot : ℕ}

theorem DataSegment.pageOf_eq (h : segment.memOffset ≤ slot) :
    pageOf slot = pageOf segment.memOffset + segment.pageIndex slot := by
  have haligned := segment.aligned
  unfold pageOf DataSegment.pageIndex machoPageSize at *
  omega

theorem DataSegment.address_eq (h : segment.memOffset ≤ slot) :
    segment.memOffset + segment.pageIndex slot * machoPageSize +
      (slot - segment.memOffset) % machoPageSize = slot := by
  have hdiv := Nat.div_add_mod' (slot - segment.memOffset) machoPageSize
  unfold DataSegment.pageIndex
  omega

theorem DataSegment.pageIndex_lt (h : segment.memOffset ≤ slot)
    (hlt : slot < segment.memOffset + segment.memSize) :
    segment.pageIndex slot < segment.pageCount := by
  unfold DataSegment.pageIndex DataSegment.pageCount machoPageSize
  omega

namespace Pointers

variable (image : Pointers segment)

theorem slots_within {slot : ℕ} (h : slot ∈ image.chainedRebases.slots) :
    segment.memOffset ≤ slot ∧ slot < segment.memOffset + segment.memSize := by
  obtain ⟨p, hp, rfl⟩ := image.mem_slots.1 h
  obtain ⟨hle, hlt⟩ := image.within p hp
  exact ⟨hle, by omega⟩

variable {words : List (ℕ × ℕ)}

theorem pageWalk (hwords : image.writeWords = .ok words)
    (rest : ℕ → ℕ) {starts : SegmentStarts} (hsize : starts.pageSize = machoPageSize)
    (hoff : machoStartMemAddress + starts.segmentOffset = segment.memOffset) {page : ℕ}
    (hstart : starts.pageStarts[page]? = some (segment.startOf image.chainedRebases.slots page)) :
    starts.PageWalk (memoryOf words rest) page
      (image.chainedRebases.slots.filter fun slot => segment.pageIndex slot = page) := by
  have hhead : (image.chainedRebases.slots.filter fun slot => segment.pageIndex slot = page).head? =
      image.chainedRebases.slots.find? fun slot => segment.pageIndex slot = page := List.head?_filter
  unfold DataSegment.startOf at hstart
  rw [← hhead] at hstart
  cases hfilter : image.chainedRebases.slots.filter fun slot => segment.pageIndex slot = page with
  | nil =>
    rw [hfilter] at hstart
    exact .skip hstart
  | cons first others =>
    rw [hfilter] at hstart
    obtain ⟨before, after, hslots, -, hfirst, hothers⟩ := List.filter_eq_cons_iff.1 hfilter
    have hpage : segment.pageIndex first = page := of_decide_eq_true hfirst
    have hmem : ∀ slot ∈ first :: after, segment.memOffset ≤ slot := by
      intro slot hslot
      refine (image.slots_within ?_).1
      rw [hslots]
      exact List.mem_append_right _ hslot
    have hfirstLe := hmem first List.mem_cons_self
    have hwalk := KeyRuns.Walk.of_sorted image.slots_pairwise_page
      (fun _ _ _ => image.nextSlot_eq hwords rest) hslots
    have hsame : (after.filter fun slot => pageOf slot = pageOf first) = others := by
      rw [← hothers]
      refine List.filter_congr fun slot hslot => ?_
      rw [DataSegment.pageOf_eq (hmem slot (List.mem_cons_of_mem _ hslot)),
        DataSegment.pageOf_eq hfirstLe, hpage, decide_eq_decide]
      exact Nat.add_left_cancel_iff
    rw [hsame] at hwalk
    refine .chain hstart ?_ ?_
    · show (first - segment.memOffset) % machoPageSize ≠ dyldChainedPtrStartNone
      unfold machoPageSize dyldChainedPtrStartNone at *
      omega
    · have haddr := DataSegment.address_eq hfirstLe
      rw [hpage] at haddr
      rw [hsize, hoff]
      show KeyRuns.Walk _ (segment.memOffset + page * machoPageSize +
        (first - segment.memOffset) % machoPageSize) _
      rw [haddr]
      exact hwalk

variable {allocated : ℕ} {table : FixupTable}

theorem walk_of_segments (hwords : image.writeWords = .ok words) (rest : ℕ → ℕ)
    (hsegs : writeSegments segment image.chainedRebases.slots allocated = .ok table.segments) :
    ∃ visited, table.Walk (memoryOf words rest) visited ∧
      visited.Perm (image.pointers.map Pointer.address) := by
  have hnodup : (image.pointers.map Pointer.address).Nodup := by
    rw [List.Nodup, List.pairwise_map]
    exact image.disjoint.imp fun h => by omega
  have hslots : image.chainedRebases.slots.Perm (image.pointers.map Pointer.address) := by
    refine (List.perm_ext_iff_of_nodup (image.slots_pairwise_lt.imp Nat.ne_of_lt) hnodup).2 ?_
    intro address
    rw [image.mem_slots, List.mem_map]
  unfold writeSegments at hsegs
  split at hsegs
  next hempty =>
    cases hsegs' : table.segments with
    | nil => rw [hsegs'] at hsegs; cases hsegs
    | cons head tail =>
      rw [List.isEmpty_iff] at hempty
      rw [hempty] at hslots
      refine ⟨[], ⟨fun _ => [], ?_, ?_⟩, hslots⟩
      · intro starts hstarts
        rw [← Except.ok.inj hsegs] at hstarts
        cases List.eq_of_mem_replicate hstarts
      · rw [← Except.ok.inj hsegs]
        rfl
  next hne =>
    obtain ⟨starts, hstarts, hok⟩ := bind_eq_ok.1 hsegs
    obtain ⟨hsize, hoff, hlen, hpages⟩ := writeSegmentStarts_ok image.slots_pairwise_lt
      (fun _ => image.slots_within) hstarts
    have hsegs' : table.segments = [none, none, some starts, none] := (Except.ok.inj hok).symm
    refine ⟨(List.range segment.pageCount).flatMap fun page =>
      image.chainedRebases.slots.filter fun slot => segment.pageIndex slot = page, ?_, ?_⟩
    · refine ⟨fun _ => (List.range segment.pageCount).map fun page =>
        image.chainedRebases.slots.filter fun slot => segment.pageIndex slot = page, ?_, ?_⟩
      · intro starts' hmem
        rw [hsegs'] at hmem
        have heq : starts' = starts := by simpa using hmem
        rw [heq, hlen, List.forall₂_map_right_iff, List.forall₂_same]
        intro page hpage
        exact image.pageWalk hwords rest hsize hoff (hpages page (List.mem_range.1 hpage))
      · rw [hsegs']
        simp [List.flatMap_def]
    · refine ((KeyRuns.perm_flatMap_filter _ _).trans (.of_eq ?_)).trans hslots
      rw [List.filter_eq_self]
      intro slot hslot
      obtain ⟨hle, hlt⟩ := image.slots_within hslot
      exact decide_eq_true (DataSegment.pageIndex_lt hle hlt)

/-! ## The table -/

theorem writeChainedFixupTable_ok
    (h : writeChainedFixupTable segment image.chainedRebases allocated = .ok table) :
    writeSegments segment image.chainedRebases.slots allocated = .ok table.segments ∧
      table.Names image.imports := by
  unfold writeChainedFixupTable at h
  rw [ensure_bind_eq_ok, bind_eq_ok] at h
  obtain ⟨-, segments, hsegs, h⟩ := h
  rw [ensure_bind_eq_ok, bind_eq_ok] at h
  obtain ⟨-, ⟨entries, strings⟩, himports, hok⟩ := h
  cases hok
  obtain ⟨hlen, -, hnames⟩ := writeImports_names himports
  refine ⟨hsegs, hlen, fun i chained entry hchained hentry => ?_⟩
  obtain ⟨hordinal, hle, hname⟩ := hnames i chained entry _ hchained hentry
  refine ⟨?_, hordinal⟩
  obtain ⟨offset, hoff⟩ := Nat.exists_eq_add_of_le hle
  rw [hoff, Nat.add_sub_cancel_left] at hname
  unfold FixupTable.symbolName
  rw [hoff, Nat.add_comm, List.cons_append, List.drop_succ_cons]
  exact hname

theorem exists_writeSegments :
    (∃ segments, writeSegments segment image.chainedRebases.slots allocated = .ok segments) ↔
      (image.pointers ≠ [] → segment.pageCount ≤ 0xffff ∧
        segment.importsOffset image.chainedRebases.slots ≤ allocated) := by
  unfold writeSegments
  split
  next hempty =>
    rw [List.isEmpty_iff, image.slots_eq_nil] at hempty
    exact ⟨fun _ hne => absurd hempty hne, fun _ => ⟨_, rfl⟩⟩
  next hne =>
    rw [List.isEmpty_iff, image.slots_eq_nil] at hne
    rw [← exists_writeSegmentStarts image.slots_pairwise_lt fun _ => image.slots_within]
    constructor
    · rintro ⟨segments, hsegs⟩ -
      obtain ⟨starts, hstarts, -⟩ := bind_eq_ok.1 hsegs
      exact ⟨starts, hstarts⟩
    · intro h
      obtain ⟨starts, hstarts⟩ := h hne
      exact ⟨_, bind_eq_ok.2 ⟨starts, hstarts, rfl⟩⟩

theorem importsOffset_ge (slots : List ℕ) : 32 + startsInImageSize ≤ segment.importsOffset slots := by
  unfold DataSegment.importsOffset
  split
  · exact le_rfl
  · exact (show 32 + startsInImageSize ≤ 32 + roundUp startsInImageSize 8 by decide).trans
      (Nat.le_add_right _ _)

theorem exists_writeChainedFixupTable :
    (∃ table, writeChainedFixupTable segment image.chainedRebases allocated = .ok table) ↔
      (image.pointers ≠ [] → segment.pageCount ≤ 0xffff) ∧
        1 + stringsSize image.imports.dropLast < 2 ^ 23 ∧
        segment.importsOffset image.chainedRebases.slots + 4 * image.imports.length + 1 +
          stringsSize image.imports ≤ allocated := by
  have hge : 32 + startsInImageSize ≤ segment.importsOffset image.chainedRebases.slots :=
    importsOffset_ge _
  have himports : (∃ result, writeImports
      (allocated - (segment.importsOffset image.chainedRebases.slots + 4 * image.imports.length))
        1 image.imports = .ok result) ↔
      1 + stringsSize image.imports.dropLast < 2 ^ 23 ∧ (image.imports ≠ [] →
        1 + stringsSize image.imports ≤ allocated -
          (segment.importsOffset image.chainedRebases.slots + 4 * image.imports.length)) := by
    cases hnil : image.imports with
    | nil => exact ⟨fun _ => ⟨by decide, fun h => absurd rfl h⟩, fun _ => ⟨_, rfl⟩⟩
    | cons chained others =>
      rw [exists_writeImports (List.cons_ne_nil _ _)]
      simp
  constructor
  · rintro ⟨table, h⟩
    unfold writeChainedFixupTable at h
    rw [ensure_bind_eq_ok, bind_eq_ok] at h
    obtain ⟨-, segments, hsegs, h⟩ := h
    rw [ensure_bind_eq_ok, bind_eq_ok] at h
    obtain ⟨hroom, result, hres, -⟩ := h
    obtain ⟨hnames, hfits⟩ := himports.1 ⟨result, hres⟩
    refine ⟨fun hne => (image.exists_writeSegments.1 ⟨segments, hsegs⟩ hne).1, hnames, ?_⟩
    have hroom' : segment.importsOffset image.chainedRebases.slots +
        4 * image.imports.length + 1 ≤ allocated := hroom
    cases hnil : image.imports with
    | nil =>
      rw [hnil] at hroom'
      exact hroom'
    | cons chained others =>
      rw [hnil] at hfits hroom'
      have hfits' := hfits (List.cons_ne_nil _ _)
      omega
  · rintro ⟨hpages, hnames, hfits⟩
    have hsegs : ∃ segments, writeSegments segment image.chainedRebases.slots allocated =
        .ok segments := image.exists_writeSegments.2 fun hne => ⟨hpages hne, by omega⟩
    obtain ⟨segments, hsegs⟩ := hsegs
    obtain ⟨result, hres⟩ := himports.2 ⟨hnames, fun _ => by omega⟩
    have hroom : segment.importsOffset image.chainedRebases.slots +
        4 * image.chainedRebases.imports.length + 1 ≤ allocated :=
      show _ + 4 * image.imports.length + 1 ≤ allocated by omega
    unfold writeChainedFixupTable
    exact ⟨_, ensure_bind_eq_ok.2 ⟨by omega, bind_eq_ok.2 ⟨segments, hsegs,
      ensure_bind_eq_ok.2 ⟨hroom, bind_eq_ok.2 ⟨result, hres, rfl⟩⟩⟩⟩⟩

/-! ## The result -/

theorem length_le_stringsSize (imports : List ChainedImport) :
    imports.length ≤ stringsSize imports.dropLast + 1 := by
  have hle : ∀ l : List ChainedImport, l.length ≤ stringsSize l := by
    intro l
    induction l with
    | nil => exact le_rfl
    | cons chained l ih =>
      rw [List.length_cons, stringsSize_cons]
      omega
  have hdrop := hle imports.dropLast
  rw [List.length_dropLast] at hdrop
  omega

theorem Target.representable_iff {target : Target} {imports : List ChainedImport}
    (hlt : ∀ index addend, target = .bind index addend → index < imports.length)
    (hcount : imports.length ≤ 2 ^ 24) :
    target.Representable ↔ (∃ word, target.encode 0 = .ok word) ∧
      target.written.fixup imports = target.fixup imports := by
  cases target with
  | rebase value =>
    simp only [Target.encode_rebase, exists_and_left, exists_eq, and_true]
    show machoStartMemAddress ≤ value ∧ value < machoStartMemAddress + 2 ^ 36 ↔ _
    constructor
    · rintro ⟨hle, hvalue⟩
      exact ⟨⟨hle, by omega, by decide⟩, rfl⟩
    · rintro ⟨⟨hle, hvalue, -⟩, -⟩
      exact ⟨hle, by omega⟩
  | bind index addend =>
    have hindex := hlt index addend rfl
    simp only [Target.encode_bind, exists_and_left, exists_eq, and_true]
    show addend = 0 ↔ _ ∧ imports[index]?.map _ = imports[index]?.map _
    rw [List.getElem?_eq_getElem hindex, map_some, map_some]
    constructor
    · rintro rfl
      exact ⟨⟨by omega, by decide⟩, rfl⟩
    · rintro ⟨-, heq⟩
      injection heq with heq
      injection heq with _ _ haddend
      exact haddend.symm

variable {p : Pointer}

theorem target_importIndex {index : ℕ} {addend : ℤ}
    (h : p.target = .bind index addend) : p.importIndex? = some index := by
  cases p with
  | rebase _ _ => cases h
  | bind _ _ _ => cases h; rfl
  | got _ _ importIndex =>
    cases importIndex with
    | none => cases h
    | some _ => cases h; rfl

theorem decode_word (hwords : image.writeWords = .ok words)
    (hnames : table.Names image.imports) (rest : ℕ → ℕ) (hp : p ∈ image.pointers) :
    table.decode (memoryOf words rest p.address) = p.target.written.fixup image.imports := by
  have hword := image.memoryOf_words hwords rest hp
  rw [image.word_eq hp] at hword
  obtain ⟨stride, -, hencode⟩ := bind_eq_ok.1 hword
  exact Target.decode_encode hnames hencode

theorem strides_iff :
    (∀ p ∈ image.pointers, ∃ stride, image.chainedRebases.nextStride p.address = .ok stride) ↔
      ∀ p ∈ image.pointers, ∀ q ∈ image.pointers, pageOf p.address = pageOf q.address →
        p.address % 4 = q.address % 4 := by
  constructor
  · intro h p hp q hq hpage
    have hneighbours := image.congruent_of_neighbours fun before place after hslots => by
      have hmem : place ∈ image.chainedRebases.slots := by
        rw [hslots]
        exact List.mem_append_right _ List.mem_cons_self
      obtain ⟨r, hr, rfl⟩ := image.mem_slots.1 hmem
      exact (image.exists_nextStride hslots).1 (h r hr)
    rcases pairwise_eq_or hneighbours (image.mem_slots.2 ⟨p, hp, rfl⟩)
      (image.mem_slots.2 ⟨q, hq, rfl⟩) with heq | hlt | hlt
    · rw [heq]
    · exact hlt.2 hpage
    · exact (hlt.2 hpage.symm).symm
  · intro h p hp
    obtain ⟨before, after, hslots⟩ := List.append_of_mem (image.mem_slots.2 ⟨p, hp, rfl⟩)
    refine (image.exists_nextStride hslots).2 fun next hnext => ?_
    unfold nextInPage at hnext
    obtain ⟨hhead, hpage⟩ := Option.filter_eq_some_iff.1 hnext
    have hmem : next ∈ image.chainedRebases.slots := by
      rw [hslots]
      exact List.mem_append_right _ (List.mem_cons_of_mem _ (List.mem_of_mem_head? hhead))
    obtain ⟨q, hq, rfl⟩ := image.mem_slots.1 hmem
    have hfour := h q hq p hp (of_decide_eq_true hpage)
    omega

/-- The loader finds the pointers exactly when they can be encoded. -/
theorem described_iff (reservation : Reservation) :
    image.Described reservation ↔
      image.Encodable reservation.chainedFixupTableAllocationSize := by
  have hindex : ∀ p ∈ image.pointers, ∀ index addend, p.target = .bind index addend →
      index < image.imports.length := fun p hp index addend htarget =>
    image.import_lt p hp index (target_importIndex htarget)
  have hcount : 1 + stringsSize image.imports.dropLast < 2 ^ 23 →
      image.imports.length ≤ 2 ^ 24 := fun hnames => by
    have hlen := length_le_stringsSize image.imports
    omega
  constructor
  · rintro ⟨words, table, hwords, htable, hdescribed⟩
    obtain ⟨-, hread⟩ := image.writeChainedFixupTable_ok htable
    obtain ⟨hpages, hnames, hfits⟩ := image.exists_writeChainedFixupTable.1 ⟨table, htable⟩
    have hall := image.exists_writeWords.1 ⟨words, hwords⟩
    refine ⟨image.strides_iff.1 fun p hp => ((image.exists_word hp).1 (hall p hp)).1,
      fun p hp => ?_, hpages, hnames, hfits⟩
    rw [Target.representable_iff (hindex p hp) (hcount hnames)]
    refine ⟨((image.exists_word hp).1 (hall p hp)).2, ?_⟩
    rw [← image.decode_word hwords hread (fun _ => 0) hp]
    exact (hdescribed fun _ => 0).decode p hp
  · rintro ⟨hcongruent, hrepresentable, hpages, hnames, hfits⟩
    have htargets : ∀ p ∈ image.pointers, (∃ word, p.target.encode 0 = .ok word) ∧
        p.target.written.fixup image.imports = p.target.fixup image.imports := fun p hp =>
      (Target.representable_iff (hindex p hp) (hcount hnames)).1 (hrepresentable p hp)
    have hstrides := image.strides_iff.2 hcongruent
    obtain ⟨words, hwords⟩ := image.exists_writeWords.2 fun p hp =>
      (image.exists_word hp).2 ⟨hstrides p hp, (htargets p hp).1⟩
    obtain ⟨table, htable⟩ := image.exists_writeChainedFixupTable.2 ⟨hpages, hnames, hfits⟩
    obtain ⟨hsegs, hread⟩ := image.writeChainedFixupTable_ok htable
    refine ⟨words, table, hwords, htable, fun rest => ⟨?_, fun p hp => ?_⟩⟩
    · exact image.walk_of_segments hwords rest hsegs
    · rw [image.decode_word hwords hread rest hp, (htargets p hp).2]

/-- The space is enough if the segment is no larger than the image was then, or
than 64 MiB, and the imports are among the symbols without a definition. -/
theorem fits_of_reserved {reservation : Reservation} {others : List (Option (List UInt8))}
    (hsize : segment.memSize ≤ max reservation.totalMemSize (64 <<< 20))
    (hnames : reservation.undefinedNames.Perm
      (image.imports.map (fun chained => some chained.name) ++ others)) :
    segment.importsOffset image.chainedRebases.slots + 4 * image.imports.length + 1 +
      stringsSize image.imports ≤ reservation.chainedFixupTableAllocationSize := by
  have hlen : image.imports.length ≤ reservation.undefinedNames.length := by
    rw [hnames.length_eq, List.length_append, List.length_map]
    exact Nat.le_add_right _ _
  have hstrings : stringsSize image.imports ≤
      ((reservation.undefinedNames.filterMap id).map fun name => name.length + 1).sum := by
    rw [((hnames.filterMap id).map _).sum_nat, List.filterMap_append, List.map_append,
      List.sum_append_nat, List.filterMap_map]
    simp [stringsSize, Function.comp_def]
  have hpages := Nat.div_le_div_right (c := machoPageSize) (show segment.memSize +
    machoPageSize - 1 ≤ max reservation.totalMemSize (64 <<< 20) + machoPageSize - 1 by omega)
  unfold Reservation.chainedFixupTableAllocationSize DataSegment.importsOffset
    DataSegment.pageCount segmentInfoSize roundUp
  dsimp only
  split <;> omega

end Pointers

/-! ## An addend -/

/-- One page of data, behind one of text. -/
def onePage : DataSegment where
  memOffset := machoStartMemAddress + machoPageSize
  memSize := machoPageSize
  start_le := by decide
  aligned := rfl

/-- A pointer to the eighth byte behind a symbol of a library. -/
def behindSymbol : Pointers onePage where
  pointers := [.bind onePage.memOffset 0 8]
  imports := [⟨[95, 120], 1, by decide⟩]
  within := by decide
  disjoint := List.pairwise_singleton _ _
  import_lt := by decide

/-- Only the symbol is undefined. -/
def behindSymbolReservation : Reservation where
  totalMemSize := 2 * machoPageSize
  undefinedNames := [some [95, 120]]

/-- The loader finds the symbol itself. -/
theorem addend_is_lost : ¬behindSymbol.Described behindSymbolReservation := by
  rintro ⟨words, table, hwords, htable, hdescribed⟩
  obtain ⟨-, hread⟩ := behindSymbol.writeChainedFixupTable_ok htable
  have hp : Pointer.bind onePage.memOffset 0 8 ∈ behindSymbol.pointers :=
    List.mem_singleton.2 rfl
  have hdecode := (hdescribed fun _ => 0).decode _ hp
  rw [behindSymbol.decode_word hwords hread _ hp] at hdecode
  injection hdecode with hdecode
  injection hdecode with _ _ haddend
  cases haddend

end Sld.MachO
