/-
# `Dynamic.CopyConsistency` — when the copies are consistent

The alignment of a copy is that of the section of the symbol as it stands in
the shared object; a section that says 0, which stands for 1, ends the link.
A symbol without a size takes no space, and neither keeps `.bss` nor makes
layout align its part.

    exists_selected      the symbols that are copied, and those that are exported
    linkCopies_eq_ok     when the link goes through, and to what
    copiesAgree_iff      the condition on the input
-/
import Sld.Dynamic.CopyBlocks

namespace Sld.Dynamic.Copies

open Text.Reader (orError_some bind_eq_ok ok_bind)
open Layout (Alignment PartId OutputSections numAlignments)
open Bump (taken)
open List (length_map map_congr_left map_map mem_filter mem_map mem_map_of_mem)

/-! ## Lists -/

theorem mapM_eq_map {α β : Type} {f : α → Except String β} {g : α → β} {l : List α}
    (h : ∀ a ∈ l, f a = .ok (g a)) : l.mapM f = .ok (l.map g) := by
  induction l with
  | nil => rfl
  | cons a l ih =>
    rw [List.forall_mem_cons] at h
    rw [List.mapM_cons, h.1, ih h.2]
    rfl

/-! ## Selection -/

namespace CopyInput

variable {input : CopyInput}

/-- The symbol that is copied for an address. -/
def copiedAt (input : CopyInput) (address : ℕ) : Option ℕ :=
  copied input.symbols input.requests address

variable {address : ℕ}

theorem isRequested_iff :
    input.isRequested address ↔ requestsAt input.symbols input.requests address ≠ [] := by
  constructor
  · rintro ⟨symbolId, hmem, hsym⟩ hnil
    have h := mem_requestsAt.mpr ⟨hmem, hsym⟩
    rw [hnil] at h
    cases h
  · intro hne
    obtain ⟨symbolId, hmem⟩ := List.exists_mem_of_ne_nil _ hne
    obtain ⟨hreq, hsym⟩ := mem_requestsAt.mp hmem
    exact ⟨symbolId, hreq, hsym⟩

/-- The map and the exported symbols after the selection. -/
structure Selected (input : CopyInput) (infos : List CopyRelocationInfo) (definitions : List ℕ) :
    Prop where
  nodup : (infos.map CopyRelocationInfo.address).Nodup
  mem : ∀ address, address ∈ infos.map CopyRelocationInfo.address ↔ input.isRequested address
  copied : ∀ info ∈ infos, input.copiedAt info.address = some info.symbolId
  symbol : ∀ info ∈ infos, ∃ symbol, input.symbols[info.symbolId]? = some symbol
    ∧ symbol.value = info.address ∧ symbol.isCanonical = true
  definitions_nodup : definitions.Nodup
  mem_definitions : ∀ symbolId, symbolId ∈ definitions ↔ ∃ symbol,
    input.symbols[symbolId]? = some symbol ∧ symbol.isCanonical = true
      ∧ input.isRequested symbol.value

theorem mem_exported {infos : List CopyRelocationInfo} {symbolId : ℕ} :
    symbolId ∈ exported infos input.symbols.zipIdx ↔ ∃ symbol,
      input.symbols[symbolId]? = some symbol ∧ symbol.isCanonical = true
        ∧ symbol.value ∈ infos.map CopyRelocationInfo.address := by
  rw [exported, mem_map]
  constructor
  · rintro ⟨⟨symbol, id⟩, hmem, rfl⟩
    obtain ⟨hzip, hkept⟩ := mem_filter.mp hmem
    obtain ⟨hany, hcanon⟩ := Bool.and_eq_true_iff.mp hkept
    exact ⟨symbol, List.mk_mem_zipIdx_iff_getElem?.mp hzip, hcanon, any_address.mp hany⟩
  · rintro ⟨symbol, hsym, hcanon, haddr⟩
    exact ⟨(symbol, symbolId), mem_filter.mpr ⟨List.mk_mem_zipIdx_iff_getElem?.mpr hsym,
      Bool.and_eq_true_iff.mpr ⟨any_address.mpr haddr, hcanon⟩⟩, rfl⟩

theorem symbol_of_isEntry {info : CopyRelocationInfo}
    (h : IsEntry input.symbols input.requests info) :
    ∃ symbol, input.symbols[(selectFor input.symbols.zipIdx info).symbolId]? = some symbol
      ∧ symbol.value = info.address ∧ symbol.isCanonical = true := by
  have hentered : info.symbolId ∈ requestsAt input.symbols input.requests info.address := by
    unfold IsEntry at h
    split at h
    · exact List.mem_of_mem_head? h.2
    · exact (mem_filter.mp (List.mem_of_getLast? h)).1
  have hreqd : ∃ symbol, input.symbols[info.symbolId]? = some symbol
      ∧ symbol.value = info.address ∧ symbol.isCanonical = true := by
    obtain ⟨hreq, symbol, hsym, hvalue⟩ := mem_requestsAt.mp hentered
    obtain ⟨symbol', hsym', hcanon, -⟩ := input.valid _ hreq
    rw [hsym] at hsym'
    cases hsym'
    exact ⟨symbol, hsym, hvalue, hcanon⟩
  unfold selectFor
  split
  · cases hfound : input.symbols.zipIdx.find? (isAlternative info) with
    | none => exact hreqd
    | some entry =>
      have hget := List.mk_mem_zipIdx_iff_getElem?.mp (List.mem_of_find?_eq_some hfound)
      have halt := List.find?_some hfound
      unfold isAlternative at halt
      rw [Bool.and_eq_true, Bool.and_eq_true, Bool.and_eq_true, decide_eq_true_iff] at halt
      exact ⟨entry.1, hget, halt.1.1.2, halt.1.1.1⟩
  · exact hreqd

theorem exists_selected (input : CopyInput) :
    ∃ infos infos' definitions, input.requests.foldlM (copyRelocateSymbol input.symbols) [] = .ok infos
      ∧ selectCopyRelocationAlternatives input.symbols infos = ⟨infos', definitions⟩
      ∧ input.Selected infos' definitions := by
  obtain ⟨infos, hinfos, hentered⟩ := @exists_foldlM_requests input.symbols
    input.requests _ _ entered_nil fun symbolId hmem => by
      obtain ⟨symbol, hsym, -⟩ := input.valid symbolId hmem
      exact ⟨symbol, hsym⟩
  rw [List.nil_append] at hentered
  have haddr : (infos.map (selectFor input.symbols.zipIdx)).map CopyRelocationInfo.address
      = infos.map CopyRelocationInfo.address := by
    rw [map_map]
    exact map_congr_left fun info _ => address_selectFor _ info
  refine ⟨infos, _, _, hinfos, selectCopyRelocationAlternatives_eq input.symbols infos, ?_, ?_, ?_,
    ?_, ?_, fun symbolId => ?_⟩
  · rw [haddr]
    exact hentered.nodup
  · intro address
    rw [haddr, hentered.mem, isRequested_iff]
  · intro info hmem
    obtain ⟨info, hmem', rfl⟩ := mem_map.mp hmem
    rw [address_selectFor]
    exact copied_eq (hentered.entry info hmem')
  · intro info hmem
    obtain ⟨info, hmem', rfl⟩ := mem_map.mp hmem
    rw [address_selectFor]
    exact symbol_of_isEntry (hentered.entry info hmem')
  · rw [exported]
    refine List.Nodup.sublist (List.filter_sublist.map _) ?_
    rw [List.zipIdx_map_snd]
    exact List.nodup_range'
  · rw [mem_exported]
    refine exists_congr fun symbol => and_congr_right fun _ => and_congr_right fun _ => ?_
    rw [hentered.mem, isRequested_iff]

/-! ## The output -/

/-- The space for the copies of some entries. -/
def sizesOf (input : CopyInput) (infos : List CopyRelocationInfo) : CopySizes :=
  ⟨taken (infos.map fun info => itemOf input.symbols info.symbolId), infos.length * relaEntrySize⟩

def blocks (input : CopyInput) (infos : List CopyRelocationInfo) : List Block :=
  blocksOf input.symbols (input.bssOffsets (input.sizesOf infos)) (copyRelocationSymbols infos)

/-- The place of the copy for an address. -/
def addressAt (input : CopyInput) (infos : List CopyRelocationInfo) (address : ℕ) : ℕ :=
  (((input.blocks infos).find? (·.inputAddress = address)).map Block.address).getD 0

def resolutions (input : CopyInput) (infos : List CopyRelocationInfo) (definitions : List ℕ) :
    List (Option ℕ) :=
  input.symbols.zipIdx.map fun entry =>
    if entry.2 ∈ definitions then some (input.addressAt infos entry.1.value) else none

/-- What the link makes of the entries. -/
def outputOf (input : CopyInput) (infos : List CopyRelocationInfo) (definitions : List ℕ) :
    CopyOutput where
  sizes := input.sizesOf infos
  blocks := input.blocks infos
  resolutions := input.resolutions infos definitions
  relocations := (input.blocks infos).map fun block => ⟨block.symbolId, block.address⟩
  definitions := definitions.map fun symbolId =>
    ⟨symbolId, input.addressAt infos (valueOf input.symbols symbolId)⟩

section Selected

variable {infos : List CopyRelocationInfo} {definitions : List ℕ}

theorem perm_copyRelocationSymbols (infos : List CopyRelocationInfo) :
    (copyRelocationSymbols infos).Perm (infos.map CopyRelocationInfo.symbolId) :=
  List.perm_insertionSort _ _

variable {symbolId : ℕ}

theorem mem_copyRelocationSymbols :
    symbolId ∈ copyRelocationSymbols infos ↔ ∃ info ∈ infos, info.symbolId = symbolId := by
  rw [(perm_copyRelocationSymbols infos).mem_iff, mem_map]

variable {info : CopyRelocationInfo}

section

variable (h : input.Selected infos definitions)

include h

theorem Selected.valueOf_symbolId (hmem : info ∈ infos) :
    valueOf input.symbols info.symbolId = info.address := by
  obtain ⟨symbol, hsym, hvalue, -⟩ := h.symbol info hmem
  rw [valueOf_eq hsym, hvalue]

omit h in
theorem inputAddress_blocks : (input.blocks infos).map Block.inputAddress
      = (copyRelocationSymbols infos).map (valueOf input.symbols) := by
  have hmap := @map_symbolId_blocksOf input.symbols (input.bssOffsets (input.sizesOf infos))
    (copyRelocationSymbols infos)
  have hcongr : (input.blocks infos).map Block.inputAddress
      = (input.blocks infos).map fun block => valueOf input.symbols block.symbolId :=
    map_congr_left fun block hmem => (mem_blocksOf hmem).2.1
  rw [hcongr]
  conv_rhs => rw [← hmap]
  rw [map_map]
  rfl

theorem Selected.perm_inputAddress :
    ((input.blocks infos).map Block.inputAddress).Perm (infos.map CopyRelocationInfo.address) := by
  rw [inputAddress_blocks]
  refine ((perm_copyRelocationSymbols infos).map _).trans (List.Perm.of_eq ?_)
  rw [map_map]
  exact map_congr_left fun info hmem => h.valueOf_symbolId hmem

variable {block : Block}

theorem Selected.find?_block (hmem : block ∈ input.blocks infos) :
    (input.blocks infos).find? (·.inputAddress = block.inputAddress) = some block := by
  have hnodup := (h.perm_inputAddress.nodup_iff).mpr h.nodup
  cases hfound : (input.blocks infos).find? (·.inputAddress = block.inputAddress) with
  | none =>
    have hnone := List.find?_eq_none.mp hfound block hmem
    exact absurd (decide_eq_true rfl) hnone
  | some found =>
    have hsame := List.find?_some hfound
    rw [decide_eq_true_iff] at hsame
    exact congrArg some (List.inj_on_of_nodup_map hnodup (List.mem_of_find?_eq_some hfound) hmem
      hsame)

theorem Selected.addressAt_block (hmem : block ∈ input.blocks infos) :
    input.addressAt infos block.inputAddress = block.address := by
  rw [addressAt, h.find?_block hmem]
  rfl

theorem Selected.exists_find? {address : ℕ} (hreqd : input.isRequested address) :
    ∃ block, (input.blocks infos).find? (·.inputAddress = address) = some block
      ∧ block.address = input.addressAt infos address := by
  have hmem := h.perm_inputAddress.mem_iff.mpr ((h.mem address).mpr hreqd)
  obtain ⟨block, hblock, rfl⟩ := mem_map.mp hmem
  exact ⟨block, h.find?_block hblock, (h.addressAt_block hblock).symm⟩

theorem Selected.mem_needsCopy :
    symbolId ∈ input.requests ++ definitions ↔ symbolId ∈ definitions := by
  rw [List.mem_append]
  refine or_iff_right_of_imp fun hreq => ?_
  obtain ⟨symbol, hsym, hcanon, -⟩ := input.valid symbolId hreq
  exact (h.mem_definitions symbolId).mpr ⟨symbol, hsym, hcanon, symbolId, hreq, symbol, hsym, rfl⟩

theorem Selected.mapM_resolveSymbol :
    input.symbols.zipIdx.mapM (resolveSymbol (input.blocks infos) (input.requests ++ definitions))
      = .ok (input.resolutions infos definitions) := by
  refine mapM_eq_map fun entry hmem => ?_
  unfold resolveSymbol
  by_cases hin : entry.2 ∈ definitions
  · rw [if_pos (h.mem_needsCopy.mpr hin), if_pos hin]
    obtain ⟨symbol, hsym, -, hreqd⟩ := (h.mem_definitions entry.2).mp hin
    rw [List.mk_mem_zipIdx_iff_getElem?.mp hmem] at hsym
    cases hsym
    obtain ⟨block, hfound, haddr⟩ := h.exists_find? hreqd
    rw [hfound, orError_some, ok_bind, haddr]
    rfl
  · rw [if_neg fun hcopy => hin (h.mem_needsCopy.mp hcopy), if_neg hin]

theorem Selected.getElem?_resolutions (hmem : symbolId ∈ definitions) :
    (input.resolutions infos definitions)[symbolId]?
      = some (some (input.addressAt infos (valueOf input.symbols symbolId))) := by
  obtain ⟨symbol, hsym, -, -⟩ := (h.mem_definitions symbolId).mp hmem
  rw [resolutions, List.getElem?_map, List.getElem?_zipIdx, hsym, valueOf_eq hsym]
  show some (if 0 + symbolId ∈ definitions then _ else _) = _
  rw [Nat.zero_add, if_pos hmem]

theorem Selected.symbolId_mem (hmem : info ∈ infos) : info.symbolId ∈ definitions := by
  obtain ⟨symbol, hsym, hvalue, hcanon⟩ := h.symbol info hmem
  refine (h.mem_definitions info.symbolId).mpr ⟨symbol, hsym, hcanon, ?_⟩
  rw [hvalue]
  exact (h.mem info.address).mp (mem_map_of_mem hmem)

theorem Selected.mapM_writeCopyRelocation :
    (copyRelocationSymbols infos).mapM
        (writeCopyRelocation (input.resolutions infos definitions) definitions)
      = .ok ((input.blocks infos).map fun block => ⟨block.symbolId, block.address⟩) := by
  have hmap : (copyRelocationSymbols infos).map (fun symbolId =>
        Entry.mk symbolId (input.addressAt infos (valueOf input.symbols symbolId)))
      = (input.blocks infos).map fun block => ⟨block.symbolId, block.address⟩ := by
    have hids := @map_symbolId_blocksOf input.symbols (input.bssOffsets (input.sizesOf infos))
      (copyRelocationSymbols infos)
    conv_lhs => rw [← hids]
    rw [map_map]
    refine map_congr_left fun block hmem => ?_
    rw [Function.comp_apply, ← (mem_blocksOf hmem).2.1]
    exact congrArg (Entry.mk block.symbolId) (h.addressAt_block hmem)
  rw [← hmap]
  refine mapM_eq_map fun symbolId hmem => ?_
  obtain ⟨info, hinfo, rfl⟩ := mem_copyRelocationSymbols.mp hmem
  have hdef := h.symbolId_mem hinfo
  unfold writeCopyRelocation
  rw [h.getElem?_resolutions hdef, Option.join_some, orError_some, ok_bind, if_pos hdef]
  rfl

theorem Selected.mapM_writeDefinition (willEmitBss : Bool) :
    definitions.mapM (writeDefinition willEmitBss (input.resolutions infos definitions))
      = if definitions = [] ∨ willEmitBss = true then
          .ok (definitions.map fun symbolId =>
            ⟨symbolId, input.addressAt infos (valueOf input.symbols symbolId)⟩)
        else .error "Copy relocation with no BSS section" := by
  cases willEmitBss with
  | true =>
    rw [if_pos (.inr rfl)]
    refine mapM_eq_map fun symbolId hmem => ?_
    unfold writeDefinition
    rw [if_pos rfl, h.getElem?_resolutions hmem, Option.join_some, orError_some, ok_bind]
    rfl
  | false =>
    cases definitions with
    | nil => rfl
    | cons symbolId definitions =>
      have hnot : ¬ (symbolId :: definitions = [] ∨ false = true) := by
        rintro (hnil | hfalse)
        · cases hnil
        · cases hfalse
      rw [if_neg hnot]
      rfl

end

theorem linkCopies_eq_ok (h : input.Selected infos definitions)
    {requested : List CopyRelocationInfo}
    (hrequests : input.requests.foldlM (copyRelocateSymbol input.symbols) [] = .ok requested)
    (hselect : selectCopyRelocationAlternatives input.symbols requested = ⟨infos, definitions⟩)
    {output : CopyOutput} :
    linkCopies input = .ok output ↔ (∀ info ∈ infos, IsCopyable input.symbols info.symbolId)
      ∧ (definitions = [] ∨ input.willEmitBss (input.sizesOf infos) = true)
      ∧ output = input.outputOf infos definitions := by
  have hsizes : (⟨fun part => (CopySizes.mk (fun _ => 0) 0).bss part
        + taken (infos.map fun info => itemOf input.symbols info.symbolId) part,
      (CopySizes.mk (fun _ => 0) 0).relaDynGeneral + infos.length * relaEntrySize⟩ : CopySizes)
      = input.sizesOf infos := by
    refine congrArg₂ CopySizes.mk (funext fun part => Nat.zero_add _) (Nat.zero_add _)
  have hrest : (do
        let resolutions ← input.symbols.zipIdx.mapM
          (resolveSymbol (input.blocks infos) (input.requests ++ definitions))
        let relocations ← (copyRelocationSymbols infos).mapM
          (writeCopyRelocation resolutions definitions)
        let written ← definitions.mapM
          (writeDefinition (input.willEmitBss (input.sizesOf infos)) resolutions)
        return (⟨input.sizesOf infos, input.blocks infos, resolutions, relocations, written⟩ :
          CopyOutput))
      = if definitions = [] ∨ input.willEmitBss (input.sizesOf infos) = true then
          .ok (input.outputOf infos definitions)
        else .error "Copy relocation with no BSS section" := by
    rw [h.mapM_resolveSymbol, ok_bind, h.mapM_writeCopyRelocation, ok_bind, h.mapM_writeDefinition]
    split <;> rfl
  unfold linkCopies allocateForCopyRelocations
  rw [hrequests, ok_bind, hselect]
  constructor
  · intro hlink
    obtain ⟨sizes, hallocate, hlink⟩ := bind_eq_ok.mp hlink
    obtain ⟨hcopyable, rfl⟩ := foldlM_allocateForCopy.mp hallocate
    rw [hsizes] at hlink
    obtain ⟨blocks, hblocks, hlink⟩ := bind_eq_ok.mp hlink
    obtain ⟨-, rfl⟩ := assign_eq_ok.mp hblocks
    have hlink := hrest.symm.trans hlink
    split at hlink
    · next hemit => exact ⟨hcopyable, hemit, (Except.ok.inj hlink).symm⟩
    · cases hlink
  · rintro ⟨hcopyable, hemit, rfl⟩
    refine bind_eq_ok.mpr ⟨_, foldlM_allocateForCopy.mpr ⟨hcopyable, rfl⟩, ?_⟩
    rw [hsizes]
    refine bind_eq_ok.mpr ⟨_, assign_eq_ok.mpr ⟨fun symbolId hmem => ?_, rfl⟩, ?_⟩
    · obtain ⟨info, hinfo, rfl⟩ := mem_copyRelocationSymbols.mp hmem
      exact hcopyable info hinfo
    · exact hrest.trans (if_pos hemit)

end Selected

/-! ## The condition -/

/-- The addresses that are asked for. -/
def addresses (input : CopyInput) : List ℕ := (input.requests.map (valueOf input.symbols)).dedup

/-- The part and the size of the copy for an address. -/
def neededItem (input : CopyInput) (address : ℕ) : PartId × ℕ :=
  itemOf input.symbols ((input.copiedAt address).getD 0)

def neededSizes (input : CopyInput) : CopySizes :=
  ⟨taken (input.addresses.map input.neededItem), input.addresses.length * relaEntrySize⟩

/-- The symbols that are copied are data in sections with an alignment; one
of the copies or something else keeps `.bss`; and where the part of a copy is
empty, it is aligned even so. -/
structure Copyable (input : CopyInput) : Prop where
  data : ∀ address, input.isRequested address → ∃ symbolId ∈ input.copiedAt address,
    ∃ symbol ∈ input.symbols[symbolId]?, symbol.isTls = false
      ∧ ∃ exponent ≤ numAlignments - 1, symbol.sectionAlignment = some (2 ^ exponent)
  emitted : input.requests = [] ∨ input.willEmitBss input.neededSizes = true
  empty : ∀ address, input.isRequested address →
    input.totalSizes input.neededSizes (input.neededItem address).1 = 0 →
      (input.outputSections.partAlignment (input.neededItem address).1).value
        ∣ input.bssOffsets input.neededSizes (input.neededItem address).1

theorem mem_addresses : address ∈ input.addresses ↔ input.isRequested address := by
  rw [addresses, List.mem_dedup, mem_map]
  constructor
  · rintro ⟨symbolId, hmem, rfl⟩
    obtain ⟨symbol, hsym, -⟩ := input.valid symbolId hmem
    exact ⟨symbolId, hmem, symbol, hsym, (valueOf_eq hsym).symm⟩
  · rintro ⟨symbolId, hmem, symbol, hsym, rfl⟩
    exact ⟨symbolId, hmem, valueOf_eq hsym⟩

theorem taken_perm {items items' : List (PartId × ℕ)} (h : items.Perm items') :
    taken items = taken items' :=
  funext fun _ => ((h.filter _).map Prod.snd).sum_eq

section Selected

variable {infos : List CopyRelocationInfo} {definitions : List ℕ}

theorem Selected.neededItem_address (h : input.Selected infos definitions)
    {info : CopyRelocationInfo} (hmem : info ∈ infos) :
    input.neededItem info.address = itemOf input.symbols info.symbolId := by
  rw [neededItem, h.copied info hmem]
  rfl

theorem Selected.sizesOf_eq (h : input.Selected infos definitions) :
    input.sizesOf infos = input.neededSizes := by
  have hperm : (infos.map CopyRelocationInfo.address).Perm input.addresses := by
    refine (List.perm_ext_iff_of_nodup h.nodup (List.nodup_dedup _)).mpr fun address => ?_
    exact (h.mem address).trans mem_addresses.symm
  have hitems : (infos.map fun info => itemOf input.symbols info.symbolId)
      = (infos.map CopyRelocationInfo.address).map input.neededItem := by
    rw [map_map]
    exact map_congr_left fun info hmem => (h.neededItem_address hmem).symm
  have hlen := hperm.length_eq
  rw [length_map] at hlen
  rw [sizesOf, neededSizes, hitems, taken_perm (hperm.map _), hlen]

theorem taken_ids (infos : List CopyRelocationInfo) :
    taken ((copyRelocationSymbols infos).map (itemOf input.symbols))
      = (input.sizesOf infos).bss := by
  refine (taken_perm ((perm_copyRelocationSymbols infos).map _)).trans ?_
  rw [map_map]
  rfl

variable {symbolId : ℕ}

theorem mem_parts_of_copyable (h : IsCopyable input.symbols symbolId) :
    (itemOf input.symbols symbolId).1 ∈ bss.parts := by
  obtain ⟨copy, hcopy⟩ := h
  rw [itemOf_eq hcopy]
  exact bssPart_mem

theorem partsPlaced (input : CopyInput) (sizes : CopySizes) :
    PartsPlaced (input.totalSizes sizes) input.outputSections bss.parts
      (Layout.placeSection (input.totalSizes sizes) input.outputSections input.args
        input.layoutState bss) :=
  partsPlaced_bss input.isAlloc input.notPartial input.layoutState

theorem dvd_bssOffsets {sizes : CopySizes} {part : PartId} (hpart : part ∈ bss.parts)
    (hsize : input.totalSizes sizes part ≠ 0) :
    (input.outputSections.partAlignment part).value ∣ input.bssOffsets sizes part := by
  have haligned := (input.partsPlaced sizes).aligned part hpart
  have hle := @Layout.partAlignment_le_maxAlignment _ input.outputSections _ hsize
  rw [Layout.OutputSectionId.mem_parts.mp hpart] at hle
  rw [min_eq_left hle] at haligned
  exact Nat.dvd_add haligned (input.dvd_before part)

theorem sizes_le_total (sizes : CopySizes) (part : PartId) :
    input.before part + sizes.bss part ≤ input.totalSizes sizes part :=
  Nat.le_add_right _ _

variable (hcopyable : ∀ info ∈ infos, IsCopyable input.symbols info.symbolId)

include hcopyable in
theorem isCopyable_of_mem (h : symbolId ∈ copyRelocationSymbols infos) :
    IsCopyable input.symbols symbolId := by
  obtain ⟨info, hmem, rfl⟩ := mem_copyRelocationSymbols.mp h
  exact hcopyable info hmem

include hcopyable in
theorem pairwise_blocks : (input.blocks infos).Pairwise fun block block' =>
    block.address + block.size ≤ block'.address ∨ block'.address + block'.size ≤ block.address := by
  have hplaced := input.partsPlaced (input.sizesOf infos)
  have hparts : ∀ item ∈ (copyRelocationSymbols infos).map (itemOf input.symbols),
      item.1 ∈ bss.parts := by
    intro item hmem
    obtain ⟨symbolId, hsymbolId, rfl⟩ := mem_map.mp hmem
    exact mem_parts_of_copyable (isCopyable_of_mem hcopyable hsymbolId)
  have hpairwise := @Bump.pairwise_bump PartId _
    (fun part => ((Layout.placeSection (input.totalSizes (input.sizesOf infos))
      input.outputSections input.args input.layoutState bss).recordsOut part).memOffset)
    (fun part => ((Layout.placeSection (input.totalSizes (input.sizesOf infos))
      input.outputSections input.args input.layoutState bss).recordsOut part).memOffset
        + input.totalSizes (input.sizesOf infos) part)
    (input.bssOffsets (input.sizesOf infos))
    ((copyRelocationSymbols infos).map (itemOf input.symbols))
    (fun item hitem item' hitem' hne =>
      hplaced.apart item.1 (hparts item hitem) item'.1 (hparts item' hitem') hne)
    (fun part => Nat.le_add_right _ _)
    (fun item _ => by
      rw [taken_ids, bssOffsets, Nat.add_assoc]
      exact Nat.add_le_add_left (sizes_le_total _ _) _)
  rw [← map_slot_blocksOf, List.pairwise_map] at hpairwise
  exact hpairwise

variable {block : Block}

theorem within_blocks (hmem : block ∈ input.blocks infos) :
    input.bssOffsets (input.sizesOf infos) block.part ≤ block.address
      ∧ block.address + block.size ≤ input.bssOffsets (input.sizesOf infos) block.part
        + (input.sizesOf infos).bss block.part := by
  have hwithin := Bump.within_of_mem_bump (mem_blocksOf hmem).2.2.1
  rw [taken_ids] at hwithin
  exact hwithin

theorem filled_blocks (part : PartId) : (input.sizesOf infos).bss part
    = (((input.blocks infos).filter (·.part = part)).map Block.size).sum := by
  have hitems : (input.blocks infos).map (fun block => (block.part, block.size))
      = (copyRelocationSymbols infos).map (itemOf input.symbols) := by
    have hslots := @map_slot_blocksOf input.symbols (input.bssOffsets (input.sizesOf infos))
      (copyRelocationSymbols infos)
    have hmap := Bump.map_bump (input.bssOffsets (input.sizesOf infos))
      ((copyRelocationSymbols infos).map (itemOf input.symbols))
    rw [← hslots, map_map] at hmap
    exact hmap
  rw [← taken_ids, ← hitems, taken, List.filter_map, map_map]
  rfl

include hcopyable in
theorem dvd_address (hmem : block ∈ input.blocks infos) (hempty : ∀ info ∈ infos,
      input.totalSizes (input.sizesOf infos) (itemOf input.symbols info.symbolId).1 = 0 →
        (input.outputSections.partAlignment (itemOf input.symbols info.symbolId).1).value
          ∣ input.bssOffsets (input.sizesOf infos) (itemOf input.symbols info.symbolId).1) :
    (input.outputSections.partAlignment block.part).value ∣ block.address := by
  refine @Bump.dvd_start_of_mem_bump PartId _
    (fun part => (input.outputSections.partAlignment part).value) _ _
    (fun item hitem => ?_) (fun item hitem => ?_) _ (mem_blocksOf hmem).2.2.1
  · obtain ⟨symbolId, hsymbolId, rfl⟩ := mem_map.mp hitem
    obtain ⟨info, hinfo, rfl⟩ := mem_copyRelocationSymbols.mp hsymbolId
    by_cases hsize : input.totalSizes (input.sizesOf infos)
        (itemOf input.symbols info.symbolId).1 = 0
    · exact hempty info hinfo hsize
    · exact dvd_bssOffsets (mem_parts_of_copyable (hcopyable info hinfo)) hsize
  · obtain ⟨symbolId, hsymbolId, rfl⟩ := mem_map.mp hitem
    obtain ⟨copy, hcopy⟩ := isCopyable_of_mem hcopyable hsymbolId
    rw [itemOf_eq hcopy]
    show (input.outputSections.partAlignment (bssPart copy.2)).value ∣ copy.2.alignUp copy.1.size
    rw [partAlignment_bssPart input.outputSections (copyOf_eq_ok.mp hcopy).2.2]
    exact Alignment.dvd_alignUp _ _

theorem filter_definitions (h : input.Selected infos definitions) (hmem : symbolId ∈ definitions) :
    (input.outputOf infos definitions).definitions.filter (·.symbolId = symbolId)
      = [⟨symbolId, input.addressAt infos (valueOf input.symbols symbolId)⟩] := by
  show (definitions.map _).filter _ = _
  rw [List.filter_map]
  have hfilter : definitions.filter (fun id => decide (id = symbolId)) = [symbolId] := by
    rw [List.filter_eq, List.count_eq_one_of_mem h.definitions_nodup hmem]
    rfl
  show (definitions.filter fun id => decide (id = symbolId)).map _ = _
  rw [hfilter]
  rfl

theorem Selected.consistent (h : input.Selected infos definitions)
    (hcopyable : ∀ info ∈ infos, IsCopyable input.symbols info.symbolId)
    (hcondition : input.Copyable) : Consistent input (input.outputOf infos definitions) where
  oneEach := (h.perm_inputAddress.nodup_iff).mpr h.nodup
  requested address := h.perm_inputAddress.mem_iff.trans (h.mem address)
  copies block hmem := by
    have hblock := mem_blocksOf hmem
    obtain ⟨info, hinfo, hid⟩ := mem_copyRelocationSymbols.mp hblock.1
    obtain ⟨symbol, hsym, hvalue, hcanon⟩ := h.symbol info hinfo
    obtain ⟨copy, hcopy⟩ := hcopyable info hinfo
    obtain ⟨hget, halign, hle⟩ := copyOf_eq_ok.mp hcopy
    have hreqd := (h.mem info.address).mp (mem_map_of_mem hinfo)
    obtain ⟨symbolId, hcopied, symbol', hsym', htls, -⟩ := hcondition.data info.address hreqd
    rw [Option.mem_def, h.copied info hinfo, Option.some.injEq] at hcopied
    subst hcopied
    rw [Option.mem_def, hsym, Option.some.injEq] at hsym'
    subst hsym'
    rw [hsym, Option.some.injEq] at hget
    have hitem := hblock.2.2.2
    rw [← hid, itemOf_eq hcopy] at hitem
    obtain ⟨hpart, hsize⟩ := Prod.mk.inj hitem
    have hdvd := dvd_address hcopyable hmem fun other hother hzero => by
      have haddr := (h.mem other.address).mp (mem_map_of_mem hother)
      have hneeded := hcondition.empty other.address haddr
      rw [h.neededItem_address hother, ← h.sizesOf_eq] at hneeded
      exact hneeded hzero
    rw [hpart, partAlignment_bssPart input.outputSections hle] at hdvd
    refine ⟨symbol, by rw [← hid]; exact hsym, ?_, hcanon, htls, ?_, 2 ^ copy.2, ?_, hdvd⟩
    · rw [hblock.2.1, ← hid, valueOf_eq hsym]
    · rw [hsize, hget]
      exact Alignment.le_alignUp _ _
    · rw [hget]
      exact halign
  disjoint := pairwise_blocks hcopyable
  within block hmem := within_blocks hmem
  filled part := filled_blocks part
  relocations := rfl
  relocationSpace := by
    have hlen : (input.blocks infos).length = infos.length := by
      have hids := congrArg List.length (@map_symbolId_blocksOf input.symbols
        (input.bssOffsets (input.sizesOf infos)) (copyRelocationSymbols infos))
      have hperm := (perm_copyRelocationSymbols infos).length_eq
      rw [length_map] at hids hperm
      exact hids.trans hperm
    show infos.length * relaEntrySize = ((input.blocks infos).map _).length * relaEntrySize
    rw [length_map, hlen]
  aliases symbolId symbol hsym hcanon block hmem hvalue := by
    have hreqd : input.isRequested symbol.value := by
      rw [← hvalue]
      exact (h.mem _).mp (h.perm_inputAddress.mem_iff.mp (mem_map_of_mem hmem))
    have hdef := (h.mem_definitions symbolId).mpr ⟨symbol, hsym, hcanon, hreqd⟩
    have haddr : input.addressAt infos (valueOf input.symbols symbolId) = block.address := by
      rw [valueOf_eq hsym, ← hvalue]
      exact h.addressAt_block hmem
    refine ⟨?_, ?_⟩
    · show (input.resolutions infos definitions)[symbolId]? = _
      rw [h.getElem?_resolutions hdef, haddr]
    · rw [filter_definitions h hdef, haddr]

end Selected

end CopyInput

/-- The copies are consistent just where the symbols that are copied are data
in sections with an alignment, `.bss` is kept, and no copy without a size
stands in an empty part that layout leaves unaligned. -/
theorem copiesAgree_iff (input : CopyInput) : CopiesAgree input ↔ input.Copyable := by
  obtain ⟨requested, infos, definitions, hrequests, hselect, h⟩ := input.exists_selected
  have hlink := fun output =>
    @CopyInput.linkCopies_eq_ok _ _ _ h _ hrequests hselect output
  have hnil : definitions = [] → input.requests = [] := by
    intro hdefs
    by_contra hne
    obtain ⟨symbolId, hmem⟩ := List.exists_mem_of_ne_nil _ hne
    have hin := h.mem_needsCopy.mp (List.mem_append_left _ hmem)
    rw [hdefs] at hin
    cases hin
  constructor
  · rintro ⟨output, hok, hconsistent⟩
    obtain ⟨hcopyable, hemit, rfl⟩ := (hlink _).mp hok
    have hinfo : ∀ address, input.isRequested address → ∃ info ∈ infos, info.address = address :=
      fun address hreqd => List.mem_map.mp ((h.mem address).mpr hreqd)
    have hblock : ∀ info ∈ infos, ∃ block ∈ input.blocks infos, block.symbolId = info.symbolId := by
      intro info hmem
      have hid := CopyInput.mem_copyRelocationSymbols.mpr ⟨info, hmem, rfl⟩
      rw [← @map_symbolId_blocksOf input.symbols (input.bssOffsets (input.sizesOf infos))
        (copyRelocationSymbols infos)] at hid
      exact List.mem_map.mp hid
    refine ⟨fun address hreqd => ?_, ?_, fun address hreqd hzero => ?_⟩
    · obtain ⟨info, hmem, rfl⟩ := hinfo address hreqd
      obtain ⟨block, hmemBlock, hid⟩ := hblock info hmem
      obtain ⟨symbol, hsym, -, -, htls, -⟩ := hconsistent.copies block hmemBlock
      rw [hid] at hsym
      obtain ⟨copy, hcopy⟩ := hcopyable info hmem
      obtain ⟨hget, halign, hle⟩ := copyOf_eq_ok.mp hcopy
      rw [Option.mem_def, hget, Option.some.injEq] at hsym
      subst hsym
      exact ⟨info.symbolId, h.copied info hmem, copy.1, hget, htls, copy.2, hle, halign⟩
    · rw [← h.sizesOf_eq]
      exact hemit.imp_left hnil
    · obtain ⟨info, hmem, rfl⟩ := hinfo address hreqd
      obtain ⟨block, hmemBlock, hid⟩ := hblock info hmem
      obtain ⟨copy, hcopy⟩ := hcopyable info hmem
      obtain ⟨hget, halign, hle⟩ := copyOf_eq_ok.mp hcopy
      obtain ⟨symbol, hsym, -, -, -, -, alignment, hin, hdvd⟩ :=
        hconsistent.copies block hmemBlock
      rw [Option.mem_def, hid, hget, Option.some.injEq] at hsym
      subst hsym
      rw [Option.mem_def, halign, Option.some.injEq] at hin
      subst hin
      have hitem := (mem_blocksOf hmemBlock).2.2.2
      rw [hid, itemOf_eq hcopy] at hitem
      rw [h.neededItem_address hmem, itemOf_eq hcopy, ← h.sizesOf_eq] at hzero ⊢
      obtain ⟨hstart, hstop⟩ := CopyInput.within_blocks hmemBlock
      have hpart : block.part = bssPart copy.2 := (Prod.mk.inj hitem).1
      rw [hpart] at hstart hstop
      have htotal := @CopyInput.sizes_le_total input (input.sizesOf infos)
        (bssPart copy.2)
      rw [partAlignment_bssPart input.outputSections hle]
      have haddr : block.address
          = input.bssOffsets (input.sizesOf infos) (bssPart copy.2) := by
        simp only at hzero
        omega
      rw [← haddr]
      exact hdvd
  · intro hcondition
    have hcopyable : ∀ info ∈ infos, IsCopyable input.symbols info.symbolId := by
      intro info hmem
      have hreqd := (h.mem info.address).mp (List.mem_map_of_mem hmem)
      obtain ⟨symbolId, hcopied, symbol, hsym, -, exponent, hle, halign⟩ :=
        hcondition.data info.address hreqd
      rw [Option.mem_def, h.copied info hmem, Option.some.injEq] at hcopied
      subst hcopied
      exact ⟨(symbol, exponent), copyOf_eq_ok.mpr ⟨hsym, halign, hle⟩⟩
    refine ⟨_, (hlink _).mpr ⟨hcopyable, ?_, rfl⟩, h.consistent hcopyable hcondition⟩
    rw [h.sizesOf_eq]
    refine hcondition.emitted.imp_left fun hrequestsNil => ?_
    by_contra hne
    obtain ⟨symbolId, hmem⟩ := List.exists_mem_of_ne_nil _ hne
    obtain ⟨symbol, -, -, symbolId', hreq, -⟩ := (h.mem_definitions symbolId).mp hmem
    rw [hrequestsNil] at hreq
    cases hreq

/-! ## A section without an alignment -/

/-- All sections are like `.bss`. -/
def bssSections : OutputSections where
  baseAddress := 0x400000
  outputInfo _ := ⟨.primary, ⟨⟨true, true, false, false⟩, .nobits⟩, 0, none, none⟩
  optBuiltInDetails _ := none

/-- A variable of 8 bytes in a section with this `sh_addralign`. -/
def variableIn (sectionAlignment : ℕ) : CopyInput where
  symbols := [⟨0x4010, 8, false, false, some sectionAlignment, true⟩]
  requests := [0]
  valid symbolId hmem := by
    obtain rfl := List.mem_singleton.mp hmem
    exact ⟨_, rfl, rfl, rfl⟩
  outputSections := bssSections
  isAlloc := rfl
  args := ⟨12, false⟩
  notPartial := rfl
  layoutState := ⟨0x1000, 0x401000, fun _ => 0, fun _ => 0, none, fun _ => {}⟩
  before _ := 0
  behind _ := 0
  dvd_before _ := Nat.dvd_zero _
  mustKeepBss := false

/-- An alignment of 0 asks for none, but the link fails. -/
theorem section_without_alignment : ¬ CopiesAgree (variableIn 0) := by
  rintro ⟨output, hok, -⟩
  have hfails : linkCopies (variableIn 0) = .error "Invalid alignment 0x0" := rfl
  rw [hfails] at hok
  cases hok

end Sld.Dynamic.Copies
