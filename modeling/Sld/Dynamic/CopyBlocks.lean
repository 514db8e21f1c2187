/-
# `Dynamic.CopyBlocks` — the places of the copies

    copyOf_eq_ok        which symbols have a copy
    assign_eq_ok        their places, one behind the other in each part
-/
import Sld.Dynamic.CopySelection
import Sld.Layout.SectionOffsets
import Sld.Order.Bump

namespace Sld.Dynamic.Copies

open Text.Reader (orError_eq_ok bind_eq_ok)
open Layout (Alignment PartId OutputSections OutputSectionId LayoutArgs LayoutState IsAlloc
  numAlignments numSinglePartSections Placed placeSection)
open Bump (bump taken Slot)
open List (map_cons map_map mem_append mem_singleton not_mem_nil)

/-! ## One copy -/

variable {alignment : Layout.Alignment}

theorem newAlignment_eq_ok {raw : ℕ} :
    newAlignment raw = .ok alignment ↔ raw = 2 ^ alignment ∧ alignment ≤ numAlignments - 1 := by
  unfold newAlignment
  by_cases hpow : raw = 2 ^ raw.log2
  · rw [if_neg (not_not_intro hpow)]
    by_cases hlarge : numAlignments - 1 < raw.log2
    · rw [if_pos hlarge]
      constructor
      · intro h
        cases h
      · rintro ⟨rfl, hle⟩
        rw [Nat.log2_two_pow] at hlarge
        exact absurd hle (Nat.not_le.mpr hlarge)
    · rw [if_neg hlarge]
      constructor
      · intro h
        cases h
        exact ⟨hpow, Nat.le_of_not_lt hlarge⟩
      · rintro ⟨rfl, -⟩
        rw [Nat.log2_two_pow]
  · rw [if_pos hpow]
    constructor
    · intro h
      cases h
    · rintro ⟨rfl, -⟩
      rw [Nat.log2_two_pow] at hpow
      exact absurd rfl hpow

variable {copy : Symbol × Layout.Alignment} {symbolId : ℕ} {symbols : List Symbol}

theorem copyOf_eq_ok : copyOf symbols symbolId = .ok copy ↔ symbols[symbolId]? = some copy.1
      ∧ copy.1.sectionAlignment = some (2 ^ copy.2) ∧ copy.2 ≤ numAlignments - 1 := by
  unfold copyOf
  rw [bind_eq_ok]
  constructor
  · rintro ⟨symbol, hsym, h⟩
    obtain ⟨raw, hraw, h⟩ := bind_eq_ok.mp h
    obtain ⟨alignment, halign, h⟩ := bind_eq_ok.mp h
    cases h
    obtain ⟨rfl, hle⟩ := newAlignment_eq_ok.mp halign
    exact ⟨orError_eq_ok.mp hsym, orError_eq_ok.mp hraw, hle⟩
  · rintro ⟨hsym, hraw, hle⟩
    exact ⟨copy.1, orError_eq_ok.mpr hsym, bind_eq_ok.mpr ⟨_, orError_eq_ok.mpr hraw,
      bind_eq_ok.mpr ⟨copy.2, newAlignment_eq_ok.mpr ⟨rfl, hle⟩, rfl⟩⟩⟩

/-- The part of `.bss` for a copy, and its size there. -/
def itemOf (symbols : List Symbol) (symbolId : ℕ) : PartId × ℕ :=
  match copyOf symbols symbolId with
  | .ok (symbol, alignment) => (bssPart alignment, alignment.alignUp symbol.size)
  | .error _ => (bss.basePartId, 0)

def valueOf (symbols : List Symbol) (symbolId : ℕ) : ℕ :=
  (symbols[symbolId]?.map Symbol.value).getD 0

/-- The symbol has a section with a valid alignment. -/
def IsCopyable (symbols : List Symbol) (symbolId : ℕ) : Prop :=
  ∃ copy, copyOf symbols symbolId = .ok copy

theorem itemOf_eq (h : copyOf symbols symbolId = .ok copy) :
    itemOf symbols symbolId = (bssPart copy.2, copy.2.alignUp copy.1.size) := by
  unfold itemOf
  rw [h]

theorem valueOf_eq {symbol : Symbol}
    (h : symbols[symbolId]? = some symbol) : valueOf symbols symbolId = symbol.value := by
  rw [valueOf, h]
  rfl

/-! ## Space -/

theorem foldlM_allocateForCopy {infos : List CopyRelocationInfo} {sizes sizes' : CopySizes} :
    infos.foldlM (allocateForCopy symbols) sizes = .ok sizes' ↔
      (∀ info ∈ infos, IsCopyable symbols info.symbolId) ∧ sizes' = ⟨fun part => sizes.bss part
            + taken (infos.map fun info => itemOf symbols info.symbolId) part,
          sizes.relaDynGeneral + infos.length * relaEntrySize⟩ := by
  induction infos generalizing sizes with
  | nil =>
    have hid : sizes = ⟨fun part => sizes.bss part + taken [] part,
        sizes.relaDynGeneral + 0 * relaEntrySize⟩ := by
      obtain ⟨bss, rela⟩ := sizes
      rw [Nat.zero_mul]
      rfl
    constructor
    · intro h
      exact ⟨fun info hmem => absurd hmem not_mem_nil, (Except.ok.inj h).symm.trans hid⟩
    · rintro ⟨-, rfl⟩
      exact congrArg Except.ok hid
  | cons info infos ih =>
    have hnext : ∀ copy : Symbol × Layout.Alignment, copyOf symbols info.symbolId = .ok copy →
        (⟨fun part => Function.update sizes.bss (bssPart copy.2) (sizes.bss (bssPart copy.2)
              + copy.2.alignUp copy.1.size) part
            + taken (infos.map fun info => itemOf symbols info.symbolId) part,
          sizes.relaDynGeneral + relaEntrySize + infos.length * relaEntrySize⟩ : CopySizes)
        = ⟨fun part => sizes.bss part
            + taken ((info :: infos).map fun info => itemOf symbols info.symbolId) part,
          sizes.relaDynGeneral + (info :: infos).length * relaEntrySize⟩ := by
      intro copy hcopy
      rw [map_cons, itemOf_eq hcopy, List.length_cons]
      refine congrArg₂ CopySizes.mk (funext fun part => Bump.update_add_taken _ _ _ _ _) ?_
      rw [Nat.succ_mul]
      omega
    rw [List.foldlM_cons, bind_eq_ok, List.forall_mem_cons]
    constructor
    · rintro ⟨sizes₁, hfirst, hrest⟩
      obtain ⟨copy, hcopy, hfirst⟩ := bind_eq_ok.mp hfirst
      obtain rfl := Except.ok.inj hfirst
      obtain ⟨hinfos, rfl⟩ := ih.mp hrest
      exact ⟨⟨⟨copy, hcopy⟩, hinfos⟩, hnext copy hcopy⟩
    · rintro ⟨⟨⟨copy, hcopy⟩, hinfos⟩, rfl⟩
      exact ⟨_, bind_eq_ok.mpr ⟨copy, hcopy, rfl⟩, ih.mpr ⟨hinfos, (hnext copy hcopy).symm⟩⟩

/-! ## Places -/

/-- The copy of a symbol in a slot. -/
def blockOf (symbols : List Symbol) (symbolId : ℕ) (slot : Slot PartId) : Block :=
  ⟨valueOf symbols symbolId, symbolId, slot.key, slot.start, slot.size⟩

def blocksOf (symbols : List Symbol) (offsets : PartId → ℕ) (symbolIds : List ℕ) : List Block :=
  (symbolIds.zip (bump offsets (symbolIds.map (itemOf symbols)))).map fun entry =>
    blockOf symbols entry.1 entry.2

theorem assign_eq_ok {offsets : PartId → ℕ} {symbolIds : List ℕ} {blocks : List Block} :
    assignCopyRelocationAddresses symbols offsets symbolIds = .ok blocks ↔
      (∀ symbolId ∈ symbolIds, IsCopyable symbols symbolId)
        ∧ blocks = blocksOf symbols offsets symbolIds := by
  induction symbolIds generalizing offsets blocks with
  | nil =>
    constructor
    · intro h
      exact ⟨fun _ hmem => absurd hmem not_mem_nil, (Except.ok.inj h).symm⟩
    · rintro ⟨-, rfl⟩
      rfl
  | cons symbolId symbolIds ih =>
    have hnext : ∀ copy : Symbol × Layout.Alignment, copyOf symbols symbolId = .ok copy →
        blocksOf symbols offsets (symbolId :: symbolIds)
          = ⟨copy.1.value, symbolId, bssPart copy.2, offsets (bssPart copy.2),
              copy.2.alignUp copy.1.size⟩
            :: blocksOf symbols (Function.update offsets (bssPart copy.2)
              (offsets (bssPart copy.2) + copy.2.alignUp copy.1.size)) symbolIds := by
      intro copy hcopy
      rw [blocksOf, map_cons, itemOf_eq hcopy, bump, List.zip_cons_cons, map_cons, blockOf,
        valueOf_eq (copyOf_eq_ok.mp hcopy).1, blocksOf]
    rw [assignCopyRelocationAddresses, bind_eq_ok, List.forall_mem_cons]
    constructor
    · rintro ⟨copy, hcopy, h⟩
      obtain ⟨rest, hrest, h⟩ := bind_eq_ok.mp h
      obtain ⟨hsyms, hblocks⟩ := ih.mp hrest
      refine ⟨⟨⟨copy, hcopy⟩, hsyms⟩, ?_⟩
      rw [hnext copy hcopy, ← hblocks]
      exact (Except.ok.inj h).symm
    · rintro ⟨⟨⟨copy, hcopy⟩, hsyms⟩, rfl⟩
      refine ⟨copy, hcopy, bind_eq_ok.mpr ⟨_, ih.mpr ⟨hsyms, rfl⟩, ?_⟩⟩
      rw [hnext copy hcopy]
      rfl

section Blocks

variable {symbols : List Symbol} {offsets : PartId → ℕ} {symbolIds : List ℕ}

theorem length_slots :
    (bump offsets (symbolIds.map (itemOf symbols))).length = symbolIds.length := by
  rw [Bump.length_bump, List.length_map]

theorem map_symbolId_blocksOf :
    (blocksOf symbols offsets symbolIds).map Block.symbolId = symbolIds := by
  rw [blocksOf, map_map]
  exact List.map_fst_zip (Nat.le_of_eq length_slots.symm)

theorem map_slot_blocksOf :
    (blocksOf symbols offsets symbolIds).map (fun block => Slot.mk block.part block.address block.size)
      = bump offsets (symbolIds.map (itemOf symbols)) := by
  rw [blocksOf, map_map]
  exact List.map_snd_zip (Nat.le_of_eq length_slots)

theorem mem_blocksOf {block : Block} (h : block ∈ blocksOf symbols offsets symbolIds) :
    block.symbolId ∈ symbolIds ∧ block.inputAddress = valueOf symbols block.symbolId
      ∧ Slot.mk block.part block.address block.size ∈ bump offsets (symbolIds.map (itemOf symbols))
      ∧ (block.part, block.size) = itemOf symbols block.symbolId := by
  obtain ⟨⟨symbolId, slot⟩, hmem, rfl⟩ := List.mem_map.mp h
  obtain ⟨hsymbolId, hslot⟩ := List.of_mem_zip hmem
  refine ⟨hsymbolId, rfl, hslot, ?_⟩
  -- the slots are those of the items, one for one
  have hpairs : ∀ (ids : List ℕ) (offsets : PartId → ℕ), (symbolId, slot)
      ∈ ids.zip (bump offsets (ids.map (itemOf symbols))) →
      (slot.key, slot.size) = itemOf symbols symbolId := by
    intro ids
    induction ids with
    | nil =>
      intro offsets hzip
      cases hzip
    | cons first ids ih =>
      intro offsets hzip
      rw [map_cons, bump, List.zip_cons_cons] at hzip
      rcases List.mem_cons.mp hzip with heq | hzip
      · obtain ⟨rfl, rfl⟩ := Prod.mk.inj heq
        rfl
      · exact ih _ hzip
  exact hpairs symbolIds offsets hmem

end Blocks

/-! ## The parts of `.bss` -/

theorem mem_parts_bss {part : PartId} : part ∈ bss.parts ↔ 217 ≤ part ∧ part < 217 + 17 :=
  List.mem_range'_1

theorem bssPart_mem : bssPart alignment ∈ bss.parts := by
  have h : ∀ n : ℕ, 217 ≤ 217 + (16 - n) ∧ 217 + (16 - n) < 217 + 17 := by
    omega
  exact mem_parts_bss.mpr (h alignment)

theorem partAlignment_bssPart (outputSections : OutputSections)
    (h : alignment ≤ numAlignments - 1) :
    outputSections.partAlignment (bssPart alignment) = alignment := by
  have harith : ∀ n : ℕ, n ≤ 16 →
      ¬ 217 + (16 - n) < 47 ∧ 17 - 1 - (217 + (16 - n) - 47) % 17 = n := by
    omega
  obtain ⟨hlarge, heq⟩ := harith alignment h
  have hnot : ¬ bssPart alignment < numSinglePartSections := hlarge
  rw [OutputSections.partAlignment, if_neg hnot]
  exact heq

/-- The parts placed so far lie one behind the other, each aligned as far as
the section is. -/
structure PartsPlaced (sizes : PartId → ℕ) (outputSections : OutputSections) (done : List PartId)
    (state : LayoutState) : Prop where
  stop : ∀ part ∈ done, (state.recordsOut part).memOffset + sizes part ≤ state.memOffset
  apart : ∀ part ∈ done, ∀ part' ∈ done, part ≠ part' →
    (state.recordsOut part).memOffset + sizes part ≤ (state.recordsOut part').memOffset
      ∨ (state.recordsOut part').memOffset + sizes part' ≤ (state.recordsOut part).memOffset
  aligned : ∀ part ∈ done, (min (outputSections.partAlignment part)
    (outputSections.maxAlignment sizes bss)).value ∣ (state.recordsOut part).memOffset

section Parts

variable {sizes : PartId → ℕ} {outputSections : OutputSections} {args : LayoutArgs}

theorem PartsPlaced.place {done : List PartId} {state state' : LayoutState} {part : PartId}
    {record : Layout.OutputRecordLayout} (halloc : IsAlloc outputSections bss)
    (hwhole : args.shouldOutputPartialObject = false)
    (h : PartsPlaced sizes outputSections done state) (hnew : part ∉ done)
    (hplaced : Placed sizes outputSections args bss (outputSections.maxAlignment sizes bss) part
      state state' record) : PartsPlaced sizes outputSections (done ++ [part]) state' := by
  obtain ⟨hoff, hcursor, -, -⟩ := hplaced.alloc hwhole halloc
  have hsize : record.memSize = sizes part := hplaced.memSize (by decide)
  have hself : state'.recordsOut part = record := by
    rw [hplaced.recordsOut, Function.update_self]
  have hother : ∀ part' ∈ done, state'.recordsOut part' = state.recordsOut part' := by
    intro part' hmem
    rw [hplaced.recordsOut]
    refine Function.update_of_ne ?_ _ _
    rintro rfl
    exact hnew hmem
  have hle : state.memOffset ≤ record.memOffset := by
    rw [hoff]
    exact Alignment.le_alignUp _ _
  refine ⟨fun p hp => ?_, fun p hp p' hp' hne => ?_, fun p hp => ?_⟩
  · rcases mem_append.mp hp with hp | hp
    · rw [hother p hp]
      have := h.stop p hp
      omega
    · obtain rfl := mem_singleton.mp hp
      exact Nat.le_of_eq (by rw [hself, hcursor, hsize])
  · rcases mem_append.mp hp with hdone | hlast <;> rcases mem_append.mp hp' with hdone' | hlast'
    · rw [hother p hdone, hother p' hdone']
      exact h.apart p hdone p' hdone' hne
    · obtain rfl := mem_singleton.mp hlast'
      rw [hother p hdone, hself]
      exact .inl (Nat.le_trans (h.stop p hdone) hle)
    · obtain rfl := mem_singleton.mp hlast
      rw [hother p' hdone', hself]
      exact .inr (Nat.le_trans (h.stop p' hdone') hle)
    · rw [mem_singleton.mp hlast, mem_singleton.mp hlast'] at hne
      exact absurd rfl hne
  · rcases mem_append.mp hp with hp | hp
    · rw [hother p hp]
      exact h.aligned p hp
    · obtain rfl := mem_singleton.mp hp
      rw [hself, ← hplaced.alignment]
      exact hplaced.dvd_memOffset

theorem partsPlaced_bss (halloc : IsAlloc outputSections bss)
    (hwhole : args.shouldOutputPartialObject = false) (state : LayoutState) :
    PartsPlaced sizes outputSections bss.parts
      (placeSection sizes outputSections args state bss) := by
  have h := @Layout.forall_placeSection sizes outputSections args
    (PartsPlaced sizes outputSections) [] state bss
    ⟨fun part hmem => absurd hmem not_mem_nil, fun part hmem => absurd hmem not_mem_nil,
      fun part hmem => absurd hmem not_mem_nil⟩
    (fun done state part state' record hstate _ hnew hplaced =>
      hstate.place halloc hwhole hnew hplaced)
    (by rw [List.nil_append]; exact Layout.OutputSectionId.nodup_parts bss)
  rwa [List.nil_append] at h

end Parts

end Sld.Dynamic.Copies
