/-
# `Incremental.SidecarRoundTrip` — the indexed file gives back the records, whole or selected

Every location the writer returns reads back as the records of one owner,
and every owner and every alias has a location (`exists_location`).  Which blocks a reader visits is therefore a set of
owners, and the result is the canonical form of what those owners own
(`readAt_distinctRanges`).  The full read visits all owners.  The
selective read visits the selected files and the owners of relocations
into them; `retain` then drops what was visited for another file's sake.
-/
import Sld.Incremental.BlockRoundTrip
import Sld.Incremental.Sidecar

namespace Sld.Incremental

open Text
open List (length_append mem_cons mem_filter mem_filterMap mem_insertionSort not_mem_nil)
open UInt64 (ofNat size)

/-! ## Reading several blocks -/

theorem sortDedup_gathered {α ι : Type} [LinearOrder α] (file : α → Text) (all : List α)
    (owner : ι → Text) {l : List ι} {files : List Text}
    (h : ∀ f, (∃ i ∈ l, owner i = f) ↔ f ∈ files) :
    sortDedup ([] ++ l.flatMap fun i => (all.filter (file · = owner i)).insertionSort (· ≤ ·)) =
      sortDedup (all.filter (file · ∈ files)) := by
  refine sortDedup_eq_iff.mpr fun r => ?_
  simp only [List.nil_append, List.mem_flatMap, mem_insertionSort, mem_filter,
    decide_eq_true_eq, ← h]
  constructor
  · rintro ⟨i, hi, hr, hfile⟩
    exact ⟨hr, i, hi, hfile.symm⟩
  · rintro ⟨hr, i, hi, hfile⟩
    exact ⟨i, hi, hr, hfile.symm⟩

namespace CompactRecords

/-- The records whose owner is in a list. -/
def ownedByAny (records : CompactRecords) (files : List Text) : CompactRecords where
  sections := records.sections.filter (·.inputFile ∈ files)
  relocations := records.relocations.filter (·.inputFile ∈ files)
  fdes := records.fdes.filter (·.inputFile ∈ files)
  dynamicRelocations := records.dynamicRelocations.filter (·.inputFile ∈ files)

variable {ι : Type}

theorem foldl_extend (f : ι → CompactRecords) : ∀ (l : List ι) (start : CompactRecords),
      l.foldl (fun records i => records.extend (f i)) start =
        { sections := start.sections ++ l.flatMap fun i => (f i).sections
          relocations := start.relocations ++ l.flatMap fun i => (f i).relocations
          fdes := start.fdes ++ l.flatMap fun i => (f i).fdes
          dynamicRelocations :=
            start.dynamicRelocations ++ l.flatMap fun i => (f i).dynamicRelocations }
  | [], start => by simp
  | i :: l, start => by
    rw [List.foldl_cons, foldl_extend f l]
    simp [extend]

theorem canonical_foldl_ownedBy (records : CompactRecords) (owner : ι → Text)
    {l : List ι} {files : List Text} (h : ∀ file, (∃ i ∈ l, owner i = file) ↔ file ∈ files) :
    (l.foldl (fun (acc : CompactRecords) i => acc.extend (records.ownedBy (owner i)))
      default).canonical = (records.ownedByAny files).canonical := by
  rw [foldl_extend]
  simp only [canonical, ownedByAny, CompactRecords.mk.injEq]
  exact ⟨sortDedup_gathered _ _ owner h, sortDedup_gathered _ _ owner h,
    sortDedup_gathered _ _ owner h, sortDedup_gathered _ _ owner h⟩

end CompactRecords

theorem mem_of_mem_owned {α : Type} [LinearOrder α] {p : α → Bool} {l : List α} {a : α}
    (h : a ∈ (l.filter p).insertionSort (· ≤ ·)) : a ∈ l :=
  List.mem_of_mem_filter ((mem_insertionSort _).mp h)

variable {records : CompactRecords}

theorem Representable.ownedBy (h : Representable records)
    (file : Text) : Representable (records.ownedBy file) where
  sections r hr := h.sections r (mem_of_mem_owned hr)
  relocations r hr := h.relocations r (mem_of_mem_owned hr)
  fdes r hr := h.fdes r (mem_of_mem_owned hr)
  dynamicRelocations r hr := h.dynamicRelocations r (mem_of_mem_owned hr)

/-! ## One block -/

variable {c : Codec} {file : List UInt8} {path : String}

theorem readBlock_congr {compressed : Bool} {l m : PatchRecordLocation} (h : l.range = m.range) :
    readBlock c path compressed file l = readBlock c path compressed file m := by
  have hkey : l.offset.toNat = m.offset.toNat ∧ l.len.toNat = m.len.toNat ∧ l.hash = m.hash := by
    simpa [PatchRecordLocation.range] using h
  simp only [readBlock, hkey.1, hkey.2.1, hkey.2.2]

section

variable {c : Codec} (hlossless : c.Lossless) {records : CompactRecords}
  (hrep : Representable records) {path : String} {file : List UInt8}
  (hsize : file.length < UInt64.size)

include hlossless hrep hsize

theorem readBlock_encoded {pre block post : List UInt8} {l : PatchRecordLocation}
    (henc : c.encodeAll (utf8 (writeRenderedRecords records)) = .ok block)
    (hfile : file = pre ++ (block ++ post)) (hoff : l.offset.toNat = pre.length)
    (hlen : l.len.toNat = block.length) (hhash : l.hash = c.hashBytes block) :
    readBlock c path true file l = .ok records := by
  have hfit : pre.length + block.length ≤ file.length := by
    simp only [hfile, length_append]; omega
  have hslice : (file.drop pre.length).take block.length = block := by
    rw [hfile, List.drop_left, List.take_left]
  rw [readBlock, hoff, hlen, if_neg (by omega), if_neg (by omega), hslice, hhash]
  simp only [ne_eq, not_true_eq_false, if_false, if_true, hlossless _ _ henc, Except.mapError,
    pure_bind, Reader.ok_bind, fromUtf8_utf8, Reader.orError_some]
  exact parseCompactRecordsBlock_written hrep

end

/-! ## The locations of a file -/

theorem encodeBlocks_ok {tmpPath : String} :
    ∀ {files : List Text} {blocks : List (Text × List UInt8)},
      encodeBlocks c tmpPath records files = .ok blocks → blocks.map (·.1) = files ∧ ∀ p ∈ blocks,
          c.encodeAll (utf8 (writeRenderedRecords (records.ownedBy p.1))) = .ok p.2
  | [], blocks, h => by
    obtain rfl : [] = blocks := by simpa [encodeBlocks, pure, Except.pure] using h
    simp
  | file :: files, blocks, h => by
    obtain ⟨block, hblock, h⟩ := Reader.bind_eq_ok.mp h
    obtain ⟨rest, hrest, h⟩ := Reader.bind_eq_ok.mp h
    obtain rfl : (file, block) :: rest = blocks := Except.ok.inj h
    obtain ⟨hfiles, hencoded⟩ := encodeBlocks_ok hrest
    refine ⟨by simp [hfiles], ?_⟩
    intro p hp
    rcases mem_cons.mp hp with rfl | hp
    · cases henc : c.encodeAll (utf8 (writeRenderedRecords (records.ownedBy file))) with
      | error e => rw [henc] at hblock; cases hblock
      | ok encoded => rw [henc] at hblock; cases hblock; rfl
    · exact hencoded p hp

theorem map_inputFile_blockLocations : ∀ (offset : UInt64) (blocks : List (Text × List UInt8)),
      (blockLocations c offset blocks).map (·.inputFile) = blocks.map (·.1)
  | _, [] => rfl
  | offset, (_, block) :: blocks => by
    simp [blockLocations, map_inputFile_blockLocations (offset + ofNat block.length) blocks]

/-- Each location frames the block of its input file; the induction is
along the file, with what has been passed in `pre`. -/
theorem readBlock_blockLocations (hlossless : c.Lossless) (hrep : Representable records)
    (hsize : file.length < size) :
    ∀ {blocks : List (Text × List UInt8)} {offset : UInt64} {pre : List UInt8},
      file = pre ++ blocks.flatMap (·.2) → offset.toNat = pre.length →
      (∀ p ∈ blocks, c.encodeAll (utf8 (writeRenderedRecords (records.ownedBy p.1))) = .ok p.2) →
      ∀ l ∈ blockLocations c offset blocks,
        readBlock c path true file l = .ok (records.ownedBy l.inputFile)
  | [], _, _, _, _, _, l, hl => nomatch hl
  | (owner, block) :: blocks, offset, pre, hfile, hoff, henc, l, hl => by
    rw [List.flatMap_cons] at hfile
    have hblock : block.length < size := by
      have : file.length = pre.length + (block.length + (blocks.flatMap (·.2)).length) := by
        rw [hfile]; simp only [length_append]
      omega
    have hlen : (ofNat block.length).toNat = block.length := UInt64.toNat_ofNat_of_lt' hblock
    rcases mem_cons.mp hl with rfl | hl
    · exact readBlock_encoded hlossless (hrep.ownedBy owner) hsize
        (henc (owner, block) List.mem_cons_self) hfile hoff hlen rfl
    · have hnext : (offset + ofNat block.length).toNat = (pre ++ block).length := by
        have hsum : pre.length + block.length < size := by
          have : file.length = pre.length + (block.length + (blocks.flatMap (·.2)).length) := by
            rw [hfile]; simp only [length_append]
          omega
        rw [UInt64.toNat_add, hoff, hlen, length_append]
        exact Nat.mod_eq_of_lt hsum
      exact readBlock_blockLocations hlossless hrep hsize (by rw [hfile, List.append_assoc]) hnext
        (fun p hp => henc p (List.mem_cons_of_mem _ hp)) l hl

/-! ## Owners and aliases -/

theorem CompactRecords.mem_owners {file : Text} : file ∈ records.owners ↔
      (∃ r ∈ records.sections, r.inputFile = file) ∨
      (∃ r ∈ records.relocations, r.inputFile = file) ∨
      (∃ r ∈ records.fdes, r.inputFile = file) ∨
      (∃ r ∈ records.dynamicRelocations, r.inputFile = file) := by
  simp [owners]

theorem CompactRecords.eq_of_ownedBy_eq {file other : Text}
    (hfile : file ∈ records.owners) (h : records.ownedBy file = records.ownedBy other) :
    file = other := by
  have transfer : ∀ {α : Type} [LinearOrder α] (fileOf : α → Text) (all : List α),
      (all.filter (fileOf · = file)).insertionSort (· ≤ ·) =
        (all.filter (fileOf · = other)).insertionSort (· ≤ ·) →
      (∃ r ∈ all, fileOf r = file) → file = other := by
    rintro α _ fileOf all heq ⟨r, hr, hrf⟩
    have hmem : r ∈ (all.filter (fileOf · = file)).insertionSort (· ≤ ·) := by simp [hr, hrf]
    rw [heq, mem_insertionSort, mem_filter, decide_eq_true_eq] at hmem
    exact hrf.symm.trans hmem.2
  rcases mem_owners.mp hfile with hex | hex | hex | hex
  · exact transfer _ _ (congrArg CompactRecords.sections h) hex
  · exact transfer _ _ (congrArg CompactRecords.relocations h) hex
  · exact transfer _ _ (congrArg CompactRecords.fdes h) hex
  · exact transfer _ _ (congrArg CompactRecords.dynamicRelocations h) hex

theorem mem_relocationAliases {relocations : List RelocationRecord} {target owner : Text} :
    toLex (target, owner) ∈ relocationAliases relocations ↔
      ∃ r ∈ relocations, ∃ t, r.target = some t ∧ t.inputFile = target ∧
        r.inputFile = owner ∧ target ≠ owner := by
  simp only [relocationAliases, mem_filterMap, Option.bind_eq_some_iff]
  constructor
  · rintro ⟨r, hr, t, ht, h⟩
    split at h
    · rename_i hne
      obtain ⟨rfl, rfl⟩ : t.inputFile = target ∧ r.inputFile = owner := by simpa using h
      exact ⟨r, hr, t, ht, rfl, rfl, hne⟩
    · exact absurd h (by simp)
  · rintro ⟨r, hr, t, ht, rfl, rfl, hne⟩
    exact ⟨r, hr, t, ht, if_pos hne⟩

/-! ## What the writer returns -/

/-- The locations of an indexed file: each reads back the records of one
owner, each owner has one under its own name, and each alias leads to the
owner's block. -/
structure Indexed (c : Codec) (path : String) (file : List UInt8) (records : CompactRecords)
    (locations : List PatchRecordLocation) : Prop where
  reads : ∀ l ∈ locations, ∃ owner ∈ records.owners,
    readBlock c path true file l = .ok (records.ownedBy owner) ∧
      (l.inputFile = owner ∨ toLex (l.inputFile, owner) ∈ relocationAliases records.relocations)
  owned : ∀ owner ∈ records.owners, ∃ l ∈ locations, l.inputFile = owner ∧
    readBlock c path true file l = .ok (records.ownedBy owner)
  aliased : ∀ target owner, toLex (target, owner) ∈ relocationAliases records.relocations →
    ∃ l ∈ locations, l.inputFile = target ∧
      readBlock c path true file l = .ok (records.ownedBy owner)

theorem indexed_of_blocks {c : Codec} (hlossless : c.Lossless) {records : CompactRecords}
    (hrep : Representable records) {path tmpPath : String} {blocks : List (Text × List UInt8)}
    (hblocks : encodeBlocks c tmpPath records (sortDedup records.owners) = .ok blocks)
    (hsize : (blocks.flatMap (·.2)).length < size) :
    Indexed c path (blocks.flatMap (·.2)) records (sortDedup (blockLocations c 0 blocks ++
        (sortDedup (relocationAliases records.relocations)).filterMap
          fun pair => aliasLocation (blockLocations c 0 blocks) (ofLex pair))) := by
  obtain ⟨hfiles, henc⟩ := encodeBlocks_ok hblocks
  have hread : ∀ l ∈ blockLocations c 0 blocks,
      readBlock c path true (blocks.flatMap (·.2)) l = .ok (records.ownedBy l.inputFile) :=
    readBlock_blockLocations hlossless hrep hsize (List.nil_append _).symm rfl henc
  have hnames : (blockLocations c 0 blocks).map (·.inputFile) = sortDedup records.owners :=
    (map_inputFile_blockLocations 0 blocks).trans hfiles
  have howner : ∀ l ∈ blockLocations c 0 blocks, l.inputFile ∈ records.owners := fun l hl =>
    mem_sortDedup.mp (hnames ▸ List.mem_map_of_mem hl)
  have hloc : ∀ owner ∈ records.owners, ∃ l ∈ blockLocations c 0 blocks,
      l.inputFile = owner := fun owner ho =>
    List.mem_map.mp (hnames ▸ mem_sortDedup.mpr ho)
  constructor
  · intro l hl
    rcases List.mem_append.mp (mem_sortDedup.mp hl) with hl | hl
    · exact ⟨l.inputFile, howner l hl, hread l hl, .inl rfl⟩
    · obtain ⟨pair, hpair, hl⟩ := mem_filterMap.mp hl
      obtain ⟨m, hm, rfl⟩ := Option.map_eq_some_iff.mp hl
      have hmem := List.mem_of_find?_eq_some hm
      have hname : m.inputFile = (ofLex pair).2 := by simpa using List.find?_some hm
      refine ⟨m.inputFile, howner m hmem, ?_, .inr ?_⟩
      · exact (readBlock_congr rfl).trans (hread m hmem)
      · rw [hname]; exact mem_sortDedup.mp hpair
  · intro owner ho
    obtain ⟨l, hl, rfl⟩ := hloc owner ho
    exact ⟨l, mem_sortDedup.mpr (List.mem_append_left _ hl), rfl, hread l hl⟩
  · intro target owner halias
    obtain ⟨r, hr, _, _, _, rfl, _⟩ := mem_relocationAliases.mp halias
    obtain ⟨l, hl, hname⟩ := hloc r.inputFile
      (CompactRecords.mem_owners.mpr (.inr (.inl ⟨r, hr, rfl⟩)))
    cases hfind : (blockLocations c 0 blocks).find? fun l => l.inputFile = r.inputFile with
    | none =>
      exact absurd hname (by simpa using List.find?_eq_none.mp hfind l hl)
    | some m =>
      have hm := List.mem_of_find?_eq_some hfind
      have hmname : m.inputFile = r.inputFile := by simpa using List.find?_some hfind
      refine ⟨{ m with inputFile := target }, ?_, rfl, ?_⟩
      · refine mem_sortDedup.mpr (List.mem_append_right _ (mem_filterMap.mpr
          ⟨toLex (target, r.inputFile), mem_sortDedup.mpr halias, ?_⟩))
        rw [aliasLocation, ofLex_toLex, hfind]
        rfl
      · rw [← hmname]
        exact (readBlock_congr rfl).trans (hread m hm)

/-! ## Reading the file back -/

theorem foldlM_readBlock {f : PatchRecordLocation → CompactRecords} :
    ∀ {ls : List PatchRecordLocation} (start : CompactRecords),
      (∀ l ∈ ls, readBlock c path true file l = .ok (f l)) →
      ls.foldlM (fun (records : CompactRecords) location => do
        let block ← readBlock c path true file location
        pure (records.extend block)) start =
          .ok (ls.foldl (fun (records : CompactRecords) l => records.extend (f l)) start)
  | [], _, _ => rfl
  | l :: ls, start, h => by
    rw [List.foldlM_cons, h l List.mem_cons_self]
    exact foldlM_readBlock (start.extend (f l)) fun m hm => h m (List.mem_cons_of_mem _ hm)

section

variable {c : Codec} {dir : RecordFiles} {name : Text} {file : List UInt8}
  {records : CompactRecords} {locations : List PatchRecordLocation}

theorem readAt_distinctRanges (hname : validateSectionsFileName name = .ok ())
    (hcompressed : startsWith name compressedSectionsFilePrefix = true)
    (hfile : dir.contents name = some file) {selected : List PatchRecordLocation}
    {files : List Text} (hreads : ∀ l ∈ selected, ∃ owner ∈ records.owners, owner ∈ files ∧
      readBlock c s!"{dir.path}/{String.ofList name}" true file l = .ok (records.ownedBy owner))
    (hcovers : ∀ owner ∈ files, ∃ l ∈ selected,
      readBlock c s!"{dir.path}/{String.ofList name}" true file l = .ok (records.ownedBy owner)) :
    readIndexedRecordsAtLocations c dir name (distinctRanges selected) =
      .ok (records.ownedByAny files).canonical := by
  have hsorted : ∀ l, l ∈ selected.insertionSort (fun a b => a.range ≤ b.range) ↔ l ∈ selected :=
    fun l => mem_insertionSort _
  have hsub : ∀ l ∈ distinctRanges selected, l ∈ selected := fun l hl =>
    (hsorted l).mp (mem_of_mem_dedupByKey hl)
  choose! owner howner hin hread using hreads
  have hset : ∀ f, (∃ l ∈ distinctRanges selected, owner l = f) ↔ f ∈ files := by
    intro f
    constructor
    · rintro ⟨l, hl, rfl⟩
      exact hin l (hsub l hl)
    · intro hf
      obtain ⟨l, hl, hlread⟩ := hcovers f hf
      obtain ⟨m, hm, hrange⟩ : ∃ m ∈ distinctRanges selected, m.range = l.range :=
        exists_key_mem_dedupByKey ((hsorted l).mpr hl)
      -- equal ranges hold equal records, and those name their owner
      have heq : records.ownedBy (owner m) = records.ownedBy f := by
        have := (hread m (hsub m hm)).symm.trans ((readBlock_congr hrange).trans hlread)
        exact Except.ok.inj this
      exact ⟨m, hm, CompactRecords.eq_of_ownedBy_eq (howner m (hsub m hm)) heq⟩
  rw [readIndexedRecordsAtLocations, hname]
  simp only [hfile, hcompressed, Reader.orError_some, Reader.ok_bind]
  rw [foldlM_readBlock default fun l hl => hread l (hsub l hl)]
  exact congrArg Except.ok (records.canonical_foldl_ownedBy owner hset)

end

/-! ## Whole and selective reads -/

namespace CompactRecords

variable {files : List Text} {α : Type} {all : List α}

theorem filter_mem_owners (fileOf : α → Text)
    (h : ∀ r ∈ all, fileOf r ∈ files) : all.filter (fileOf · ∈ files) = all :=
  List.filter_eq_self.mpr fun r hr => decide_eq_true (h r hr)

theorem ownedByAny_owners (records : CompactRecords) :
    records.ownedByAny records.owners = records := by
  rw [ownedByAny, filter_mem_owners, filter_mem_owners, filter_mem_owners, filter_mem_owners]
  · exact fun r hr => mem_owners.mpr (.inr (.inr (.inr ⟨r, hr, rfl⟩)))
  · exact fun r hr => mem_owners.mpr (.inr (.inr (.inl ⟨r, hr, rfl⟩)))
  · exact fun r hr => mem_owners.mpr (.inr (.inl ⟨r, hr, rfl⟩))
  · exact fun r hr => mem_owners.mpr (.inl ⟨r, hr, rfl⟩)

theorem retained_eq [LinearOrder α] (fileOf : α → Text) {keep : α → Bool}
    (h : ∀ r ∈ all, keep r = true → fileOf r ∈ files) :
    (sortDedup (all.filter (fileOf · ∈ files))).filter keep = (sortDedup all).filter keep := by
  rw [sortDedup_filter, sortDedup_filter, sortDedup_eq_iff]
  intro r
  simp only [mem_filter, decide_eq_true_eq]
  constructor
  · rintro ⟨⟨hr, _⟩, hkeep⟩
    exact ⟨hr, hkeep⟩
  · rintro ⟨hr, hkeep⟩
    exact ⟨⟨hr, h r hr hkeep⟩, hkeep⟩

/-- The owners a selective read visits: the selected files, and the owners
of relocations into them. -/
def visited (records : CompactRecords) (inputFiles : List Text) : List Text :=
  records.owners.filter fun owner => owner ∈ inputFiles ∨
    ∃ p ∈ relocationAliases records.relocations, (ofLex p).2 = owner ∧ (ofLex p).1 ∈ inputFiles

theorem retain_visited (records : CompactRecords) (inputFiles : List Text) :
    (records.ownedByAny (records.visited inputFiles)).canonical.retain inputFiles =
      records.canonical.retain inputFiles := by
  have hown : ∀ file, file ∈ records.owners → inputFiles.contains file = true →
      file ∈ records.visited inputFiles := by
    intro file hfile hin
    simp only [visited, mem_filter, decide_eq_true_eq]
    exact ⟨hfile, .inl (by simpa using hin)⟩
  simp only [canonical, ownedByAny, retain, CompactRecords.mk.injEq]
  refine ⟨retained_eq _ ?_, retained_eq _ ?_, retained_eq _ ?_, retained_eq _ ?_⟩
  · exact fun r hr => hown _ (mem_owners.mpr (.inl ⟨r, hr, rfl⟩))
  · intro r hr hkeep
    have howner : r.inputFile ∈ records.owners := mem_owners.mpr (.inr (.inl ⟨r, hr, rfl⟩))
    rcases Bool.or_eq_true_iff.mp hkeep with hin | htarget
    · exact hown _ howner hin
    · obtain ⟨t, ht, hin⟩ := (Option.any_eq_true _ _).mp htarget
      by_cases hsame : t.inputFile = r.inputFile
      · exact hown _ howner (hsame ▸ hin)
      · simp only [visited, mem_filter, decide_eq_true_eq]
        refine ⟨howner, .inr ⟨toLex (t.inputFile, r.inputFile), ?_, rfl, by simpa using hin⟩⟩
        exact mem_relocationAliases.mpr ⟨r, hr, t, ht, rfl, rfl, hsame⟩
  · exact fun r hr => hown _ (mem_owners.mpr (.inr (.inr (.inl ⟨r, hr, rfl⟩))))
  · exact fun r hr => hown _ (mem_owners.mpr (.inr (.inr (.inr ⟨r, hr, rfl⟩))))

end CompactRecords

section

variable {c : Codec} {dir : RecordFiles} {name : Text} {file : List UInt8}
  {records : CompactRecords} {locations : List PatchRecordLocation}
  (hname : validateSectionsFileName name = .ok ())
  (hcompressed : startsWith name compressedSectionsFilePrefix = true)
  (hfile : dir.contents name = some file)
  (hidx : Indexed c s!"{dir.path}/{String.ofList name}" file records locations)

include hname hcompressed hfile hidx

theorem readAllIndexedRecords_indexed :
    readAllIndexedRecords c dir (some name) locations = .ok records.canonical := by
  refine (readAt_distinctRanges hname hcompressed hfile ?_ ?_).trans
    (congrArg (fun r => Except.ok r.canonical) records.ownedByAny_owners)
  · intro l hl
    obtain ⟨owner, ho, hread, _⟩ := hidx.reads l hl
    exact ⟨owner, ho, ho, hread⟩
  · intro owner ho
    obtain ⟨l, hl, _, hread⟩ := hidx.owned owner ho
    exact ⟨l, hl, hread⟩

theorem readIndexedPatchRecords_indexed (inputFiles : List Text) :
    readIndexedPatchRecords c dir (some name) locations name inputFiles =
      .ok (some (records.canonical.retain inputFiles)) := by
  rw [← records.retain_visited inputFiles, readIndexedPatchRecords]
  by_cases hempty : locations = []
  · -- without locations there are no owners, and so no records
    have hnone : records.visited inputFiles = [] := by
      rw [CompactRecords.visited, List.filter_eq_nil_iff]
      intro owner ho
      obtain ⟨l, hl, _⟩ := hidx.owned owner ho
      rw [hempty] at hl
      cases hl
    rw [if_pos hempty, hnone]
    simp [CompactRecords.ownedByAny, CompactRecords.canonical, CompactRecords.retain, sortDedup,
      default, pure, Except.pure]
  · have hread : readIndexedRecordsAtLocations c dir name
        (distinctRanges (locations.filter fun l => inputFiles.contains l.inputFile)) =
          .ok (records.ownedByAny (records.visited inputFiles)).canonical := by
      refine readAt_distinctRanges hname hcompressed hfile ?_ ?_
      · intro l hl
        obtain ⟨hl, hin⟩ := mem_filter.mp hl
        obtain ⟨owner, ho, hread, halias⟩ := hidx.reads l hl
        refine ⟨owner, ho, ?_, hread⟩
        simp only [CompactRecords.visited, mem_filter, decide_eq_true_eq]
        rcases halias with rfl | halias
        · exact ⟨ho, .inl (by simpa using hin)⟩
        · exact ⟨ho, .inr ⟨_, halias, rfl, by simpa using hin⟩⟩
      · intro owner hvisited
        simp only [CompactRecords.visited, mem_filter, decide_eq_true_eq] at hvisited
        obtain ⟨ho, hin | ⟨⟨target, _⟩, hp, rfl, hin⟩⟩ := hvisited
        · obtain ⟨l, hl, rfl, hread⟩ := hidx.owned owner ho
          exact ⟨l, mem_filter.mpr ⟨hl, by simpa using hin⟩, hread⟩
        · have hmem : target ∈ inputFiles := hin
          obtain ⟨l, hl, rfl, hread⟩ := hidx.aliased target _ hp
          exact ⟨l, mem_filter.mpr ⟨hl, by simpa using hmem⟩, hread⟩
    rw [if_neg hempty]
    simp only [decide_true, Bool.not_true, Bool.false_and, Bool.false_eq_true, if_false, hread,
      Reader.ok_bind]
    rfl

end

/-! ## The round trip of the file -/

theorem validateSectionsFileName_compressed {hash : Text} (h : ∀ ch ∈ hash, IsHex ch) :
    validateSectionsFileName (compressedSectionsFilePrefix ++ hash) = .ok () := by
  have hearlier : startsWith (compressedSectionsFilePrefix ++ hash) sectionsFilePrefix = true :=
    startsWith_append sectionsFilePrefix ("zstd-".toList ++ hash)
  have habsolute : startsWith (compressedSectionsFilePrefix ++ hash) ['/'] = false := rfl
  have hfree : ∀ ch, ch ∉ compressedSectionsFilePrefix → ¬ IsHex ch →
      ch ∉ compressedSectionsFilePrefix ++ hash := fun ch hp hx hmem =>
    (List.mem_append.mp hmem).elim hp fun hmem => hx (h ch hmem)
  rw [validateSectionsFileName, hearlier, habsolute]
  simp [hfree '/' (by decide) (by decide), hfree '\\' (by decide) (by decide), pure, Except.pure]

/-- Reading after writing: the full read returns the records in canonical
form, and the read for a set of input files returns the filter of that. -/
def SidecarRoundTrips (c : Codec) (dir : RecordFiles) (records : CompactRecords) : Prop :=
  ∀ written name locations,
    writeIndexedRecordsStreaming c dir records = .ok (written, name, locations) →
      readAllIndexedRecords c written (some name) locations = .ok records.canonical ∧
      ∀ inputFiles, readIndexedPatchRecords c written (some name) locations name inputFiles =
        .ok (some (records.canonical.retain inputFiles))

theorem writeIndexedRecordsStreaming_ok {dir written : RecordFiles}
    {name : Text} {locations : List PatchRecordLocation}
    (h : writeIndexedRecordsStreaming c dir records = .ok (written, name, locations)) :
    ∃ blocks, encodeBlocks c s!"{dir.path}/sections-indexed.tmp" records
        (sortDedup records.owners) = .ok blocks ∧
      (blocks.flatMap (·.2)).length < size ∧
      name = compressedSectionsFilePrefix ++ c.hashBytes (blocks.flatMap (·.2)) ∧
      written.contents name = some (blocks.flatMap (·.2)) ∧
      locations = sortDedup (blockLocations c 0 blocks ++
        (sortDedup (relocationAliases records.relocations)).filterMap
          fun pair => aliasLocation (blockLocations c 0 blocks) (ofLex pair)) := by
  obtain ⟨blocks, hblocks, h⟩ := Reader.bind_eq_ok.mp h
  obtain ⟨bytes, hbytes, h⟩ := Reader.bind_eq_ok.mp h
  rw [sidecarBytes] at hbytes
  split at hbytes
  · rename_i hsize
    cases hbytes
    obtain ⟨rfl, hrest⟩ := Prod.mk.inj (Except.ok.inj h)
    obtain ⟨rfl, rfl⟩ := Prod.mk.inj hrest
    exact ⟨blocks, hblocks, hsize, rfl, Function.update_self .., rfl⟩
  · cases hbytes

theorem sidecarRoundTrips_of_representable (hlossless : c.Lossless)
    (hhex : c.HexHash) (hrep : Representable records)
    (dir : RecordFiles) : SidecarRoundTrips c dir records := by
  intro written name locations hwrite
  obtain ⟨blocks, hblocks, hsize, rfl, hfile, rfl⟩ := writeIndexedRecordsStreaming_ok hwrite
  have hname := validateSectionsFileName_compressed fun ch hch => hhex (blocks.flatMap (·.2)) ch hch
  have hidx := fun path => @indexed_of_blocks c hlossless records hrep path _ blocks hblocks hsize
  exact ⟨readAllIndexedRecords_indexed hname (startsWith_append _ _) hfile (hidx _),
    readIndexedPatchRecords_indexed hname (startsWith_append _ _) hfile (hidx _)⟩

/-- What is written beside the index is read again. -/
theorem sidecar_round_trip {c : Codec} (hlossless : c.Lossless) (hhex : c.HexHash)
    {records : CompactRecords} (hrep : Representable records) (dir : RecordFiles) :
    SidecarRoundTrips c dir records :=
  sidecarRoundTrips_of_representable hlossless hhex hrep dir

/-! ### A name that reads as absent -/

/-- A codec that stores its input and names bytes by their digits. -/
def storedCodec : Codec where
  hashBytes := hexEncode
  encodeAll bytes := .ok bytes
  decodeAll bytes := .ok bytes

theorem storedCodec_lossless : storedCodec.Lossless := fun _ _ h => by cases h; rfl

theorem storedCodec_hexHash : storedCodec.HexHash := fun _ _ h => isHex_of_mem_hexEncode h

theorem storedCodec_injective : Function.Injective storedCodec.hashBytes := fun a b h => by
  have := hexDecode_hexEncode a
  rw [show hexEncode a = hexEncode b from h, hexDecode_hexEncode b] at this
  exact (Option.some.inj this).symm

/-- One relocation of `a` into `b`, whose target may have a name. -/
def namedTarget (name : Option Text) : CompactRecords where
  sections := []
  relocations :=
    [{ targetSymbolId := 7, writtenValue := some 4112, targetValue := 4096, targetName := name,
       target := some { inputFile := "62".toList, input := "62".toList, sectionIndex := 1,
                        sectionOffset := 0 },
       inputFile := "61".toList, input := "61".toList, sectionIndex := 1, relocationOffset := 4,
       outputOffset := 8196, size := 8, kind := 1, addend := 16 }]
  fdes := []
  dynamicRelocations := []

theorem namedTarget_representable {name : Option Text}
    (h : ∀ n, name = some n → IsField n ∧ n ≠ absentField) : Representable (namedTarget name) where
  sections _ hr := absurd hr not_mem_nil
  relocations r hr := by
    obtain rfl := List.mem_singleton.mp hr
    have ha : InputFits "61".toList "61".toList := by decide
    have hb : InputFits "62".toList "62".toList := by decide
    exact ⟨ha, h, fun t ht => by cases ht; exact hb⟩
  fdes _ hr := absurd hr not_mem_nil
  dynamicRelocations _ hr := absurd hr not_mem_nil

theorem sidecar_round_trip_namedTarget :
    SidecarRoundTrips storedCodec ⟨"a.incr", fun _ => none⟩ (namedTarget (some "666f6f".toList)) :=
  sidecar_round_trip storedCodec_lossless storedCodec_hexHash
    (namedTarget_representable fun n hn => by cases hn; decide) _

/-- Every text field of the records. -/
def CompactRecords.texts (records : CompactRecords) : List Text :=
  records.sections.flatMap (fun r => [r.inputFile, r.input]) ++
    records.relocations.flatMap (fun r => r.targetName.toList ++
      (r.target.toList.flatMap fun t => [t.inputFile, t.input]) ++ [r.inputFile, r.input]) ++
    records.fdes.flatMap (fun r => [r.inputFile, r.input]) ++
    records.dynamicRelocations.flatMap (fun r => [r.inputFile, r.input])

set_option maxRecDepth 2000 in
theorem namedTarget_written : ∃ out, writeIndexedRecordsStreaming storedCodec
    ⟨"a.incr", fun _ => none⟩ (namedTarget none) = .ok out := ⟨_, rfl⟩

/-- Freedom from tabs and newlines alone is not enough: a target named `-`
comes back without a name. -/
theorem sidecar_loses_dash_name :
    ¬ ∀ (c : Codec) (dir : RecordFiles) (records : CompactRecords), c.Lossless →
      Function.Injective c.hashBytes → (∀ t ∈ records.texts, IsField t) →
        SidecarRoundTrips c dir records := by
  intro h
  have hsame : writeIndexedRecordsStreaming storedCodec ⟨"a.incr", fun _ => none⟩
      (namedTarget (some absentField)) =
        writeIndexedRecordsStreaming storedCodec ⟨"a.incr", fun _ => none⟩ (namedTarget none) := by
    have hblocks : encodeBlocks storedCodec "a.incr/sections-indexed.tmp"
        (namedTarget (some absentField)) (sortDedup (namedTarget (some absentField)).owners) =
          encodeBlocks storedCodec "a.incr/sections-indexed.tmp" (namedTarget none)
            (sortDedup (namedTarget none).owners) := rfl
    have haliases : relocationAliases (namedTarget (some absentField)).relocations =
        relocationAliases (namedTarget none).relocations := rfl
    rw [writeIndexedRecordsStreaming, writeIndexedRecordsStreaming, haliases]
    exact congrArg (· >>= _) hblocks
  obtain ⟨⟨written, name, locations⟩, hwrite⟩ := namedTarget_written
  have hdash := (h storedCodec ⟨"a.incr", fun _ => none⟩ (namedTarget (some absentField))
    storedCodec_lossless storedCodec_injective (by decide) written name locations
    (hsame.trans hwrite)).1
  have hnone := (sidecarRoundTrips_of_representable storedCodec_lossless storedCodec_hexHash
    (namedTarget_representable fun n hn => by cases hn) _ written name locations hwrite).1
  have hlists : sortDedup (namedTarget none).relocations =
      sortDedup (namedTarget (some absentField)).relocations :=
    congrArg CompactRecords.relocations (Except.ok.inj (hnone.symm.trans hdash))
  have hmem := (sortDedup_eq_iff.mp hlists _).mp List.mem_cons_self
  exact absurd (List.mem_singleton.mp hmem) (by decide)

end Sld.Incremental
