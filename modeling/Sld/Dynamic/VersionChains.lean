/-
# `Dynamic.VersionChains` — the version needs of all shared objects

    count_needed_le     no more numbers are taken than entries are counted
    exists_linkFrom     the numbers and the records of a run of shared objects
    needsAgree_iff      the condition on the input
-/
import Mathlib.Algebra.Order.BigOperators.Group.List
import Mathlib.Algebra.Order.Group.Nat
import Sld.Dynamic.NeededVersions

namespace Sld.Dynamic

open Text.Reader (orError_eq_ok bind_eq_ok ok_bind mem_of_mapM)
open List (forall_mem_cons length_map map_cons mem_map not_mem_nil sum_cons)

namespace DynamicInput

variable {input : DynamicInput} {next : UInt16} {mapping : List UInt16}

/-! ## Numbers -/

theorem count_needed_le (hwell : input.WellVersioned) :
    input.needed.count true ≤ input.neededVersions.length := by
  have hcount : input.needed.count true
      = ((List.range input.object.verdefnum.toNat).filter fun k => input.isNeeded (k + 1)).length := by
    rw [needed, List.count_eq_countP, List.countP_map, List.countP_eq_length_filter]
    refine congrArg List.length (List.filter_congr fun k _ => ?_)
    rw [Function.comp_apply, beq_true]
  have hsub : ((List.range input.object.verdefnum.toNat).filter fun k => input.isNeeded (k + 1))
      ⊆ input.neededVersions.map fun verdef => verdef.ndx.toNat - 1 := by
    intro k hk
    obtain ⟨i, hi, hver, hnat⟩ := isNeeded_iff.mp (List.mem_filter.mp hk).2
    obtain ⟨verdef, hdef, hbase, hndx⟩ := hwell.known i hi hver
    refine mem_map.mpr ⟨verdef, mem_neededVersions.mpr ⟨hdef, hbase, ?_⟩, ?_⟩
    · exact isNeeded_iff.mpr ⟨i, hi, hver, by rw [hndx]⟩
    · rw [hndx, hnat, Nat.add_sub_cancel]
  have hle := (List.subperm_of_subset (List.nodup_range.filter _) hsub).length_le
  rw [length_map] at hle
  omega

theorem outputVersion_lt (hload : input.Loadable) (hwell : input.WellVersioned)
    (hmap : computeVersionMapping input.needed next = .ok mapping) {verdef : Verdef}
    (h : verdef ∈ input.neededVersions) :
    (input.outputVersion next verdef).toNat = next.toNat + rank input.needed (verdef.ndx.toNat - 1)
      ∧ rank input.needed (verdef.ndx.toNat - 1) < input.neededVersions.length := by
  obtain ⟨hdef, -, hneeded⟩ := mem_neededVersions.mp h
  obtain ⟨h0, hle⟩ := hload.dense verdef hdef
  have hget := getElem?_needed_eq_some h0 hle
  rw [hneeded] at hget
  exact ⟨toNat_outputVersion hmap h0 hle hneeded,
    Nat.lt_of_lt_of_le (rank_lt_count hget) (count_needed_le hwell)⟩

theorem nodup_outputVersions (hload : input.Loadable) (hwell : input.WellVersioned)
    (hmap : computeVersionMapping input.needed next = .ok mapping) :
    (input.neededVersions.map (input.outputVersion next)).Nodup := by
  refine hwell.distinct.of_map.map_on fun verdef hmem verdef' hmem' heq => ?_
  have h := (outputVersion_lt hload hwell hmap hmem).1
  have h' := (outputVersion_lt hload hwell hmap hmem').1
  rw [heq] at h
  obtain ⟨hdef, -, hneeded⟩ := mem_neededVersions.mp hmem
  obtain ⟨hdef', -, hneeded'⟩ := mem_neededVersions.mp hmem'
  obtain ⟨h0, hle⟩ := hload.dense verdef hdef
  obtain ⟨h0', hle'⟩ := hload.dense verdef' hdef'
  have hget := getElem?_needed_eq_some h0 hle
  have hget' := getElem?_needed_eq_some h0' hle'
  rw [hneeded] at hget
  rw [hneeded'] at hget'
  have hndx := rank_injective hget hget' (by omega)
  have hpos := pos_of_ne_zero h0
  have hpos' := pos_of_ne_zero h0'
  exact List.inj_on_of_nodup_map hwell.distinct hmem hmem' (UInt16.toNat_inj.mp (by omega))

/-! ## Places -/

/-- The space for the records of a shared object. -/
def recordSize (input : DynamicInput) : ℕ :=
  if 0 < input.versionCount then verneedSize + input.versionCount.toNat * vernauxSize else 0

theorem gnuVersionR_numbered : (input.numbered next).gnuVersionR = input.recordSize := by
  rw [DynamicState.gnuVersionR, versionCount_numbered, recordSize]

theorem recordSize_eq_zero : input.recordSize = 0 ↔ ¬ 0 < input.versionCount := by
  unfold recordSize
  split
  · next h =>
    have : verneedSize = 16 := rfl
    exact ⟨fun heq => by omega, fun hn => absurd h hn⟩
  · next h => exact ⟨fun _ => h, fun _ => rfl⟩

theorem toNat_next (h : 0 < input.versionCount) :
    (UInt32.ofNat (verneedSize + vernauxSize * input.versionCount.toNat)).toNat
      = input.recordSize := by
  have hlt : input.versionCount.toNat < 2 ^ 16 := input.versionCount.toNat_lt
  have h16 : verneedSize = 16 := rfl
  have h16' : vernauxSize = 16 := rfl
  rw [recordSize, if_pos h, h16, h16', UInt32.toNat_ofNat']
  omega

end DynamicInput

open DynamicInput

/-- The first number behind those of a shared object. -/
def nextIndex (next : UInt16) (input : DynamicInput) : UInt16 := next + input.versionCount

variable {input : DynamicInput} {next : UInt16}

theorem toNat_nextIndex (hload : input.Loadable)
    (hfits : next.toNat + input.neededVersions.length < 2 ^ 16) :
    (nextIndex next input).toNat = next.toNat + input.neededVersions.length := by
  rw [nextIndex, UInt16.toNat_add, hload.toNat_versionCount, Nat.mod_eq_of_lt hfits]

theorem applyNonAddressableIndexes_cons
    (hload : input.Loadable) (states : List DynamicState) (states' : List DynamicState) :
    applyNonAddressableIndexes next (input.sized :: states) = .ok states' ↔
      next.toNat + input.neededVersions.length < 2 ^ 16
        ∧ ∃ rest, applyNonAddressableIndexes (nextIndex next input) states = .ok rest
          ∧ states' = input.numbered next :: rest := by
  have hcount : (input.numbered 0).versionCount = input.versionCount := versionCount_numbered
  replace hcount : input.sized.versionCount = input.versionCount := hcount
  have hlt := next.toNat_lt
  rw [applyNonAddressableIndexes, hcount, ← hload.toNat_versionCount, bind_eq_ok]
  by_cases hpos : 0 < input.versionCount
  · rw [if_pos hpos]
    constructor
    · rintro ⟨next', hadd, hlater⟩
      obtain ⟨rest, hrest, h⟩ := bind_eq_ok.mp hlater
      obtain ⟨hfits, rfl⟩ := checkedAdd_eq_some.mp (orError_eq_ok.mp hadd)
      exact ⟨hfits, rest, hrest, (Except.ok.inj h).symm⟩
    · rintro ⟨hfits, rest, hrest, rfl⟩
      exact ⟨_, orError_eq_ok.mpr (checkedAdd_eq_some.mpr ⟨hfits, rfl⟩),
        bind_eq_ok.mpr ⟨rest, hrest, rfl⟩⟩
  · have hzero : input.versionCount = 0 := UInt16.toNat_inj.mp (Nat.eq_zero_of_not_pos hpos)
    rw [if_neg hpos, nextIndex, hzero, UInt16.add_zero]
    constructor
    · rintro ⟨next', hnext, hlater⟩
      obtain ⟨rest, hrest, h⟩ := bind_eq_ok.mp hlater
      cases hnext
      exact ⟨hlt, rest, hrest, (Except.ok.inj h).symm⟩
    · rintro ⟨-, rest, hrest, rfl⟩
      exact ⟨next, rfl, bind_eq_ok.mpr ⟨rest, hrest, rfl⟩⟩

/-! ## Runs -/

def numNeeded (inputs : List DynamicInput) : ℕ :=
  (inputs.map fun input => input.neededVersions.length).sum

def recordSizes (inputs : List DynamicInput) : ℕ := (inputs.map recordSize).sum

theorem numNeeded_cons (input : DynamicInput) (inputs : List DynamicInput) :
    numNeeded (input :: inputs) = input.neededVersions.length + numNeeded inputs := by
  rw [numNeeded, map_cons, sum_cons, numNeeded]

theorem recordSizes_cons (input : DynamicInput) (inputs : List DynamicInput) :
    recordSizes (input :: inputs) = input.recordSize + recordSizes inputs := by
  rw [recordSizes, map_cons, sum_cons, recordSizes]

theorem outputVersions_cons (w : WrittenVersions) (written : List WrittenVersions) :
    outputVersions (w :: written) = w.auxes.map Vernaux.other ++ outputVersions written := by
  rw [outputVersions, List.flatMap_cons, List.map_append, outputVersions]

/-- What a run of shared objects writes from a number and a place on. -/
structure Chained (next : UInt16) (offset : ℕ) (inputs : List DynamicInput)
    (written : List WrittenVersions) : Prop where
  sources : written.map WrittenVersions.input = inputs
  agrees : ∀ w ∈ written, w.Agrees
  linked : LinkedBy (fun needs => needs.verNeed.next) VersionNeeds.position
    (written.filterMap WrittenVersions.needs)
  first : ∀ needs ∈ (written.filterMap WrittenVersions.needs).head?, needs.position = offset
  empty : written.filterMap WrittenVersions.needs = [] ↔ recordSizes inputs = 0
  nodup : (outputVersions written).Nodup
  range : ∀ version ∈ outputVersions written,
    next.toNat ≤ version.toNat ∧ version.toNat < next.toNat + numNeeded inputs

theorem Chained.cons {next : UInt16} {offset : ℕ} {input : DynamicInput}
    {inputs : List DynamicInput} {w : WrittenVersions} {written : List WrittenVersions}
    {mapping : List UInt16} {isLast : Bool} (hload : input.Loadable) (hwell : input.WellVersioned)
    (hfits : next.toNat + input.neededVersions.length < 2 ^ 16)
    (hmap : computeVersionMapping input.needed next = .ok mapping)
    (hlast : isLast = (decide (0 < input.versionCount) && decide (recordSizes inputs = 0)))
    (hagrees : w.Agrees) (hat : input.WrittenAt next isLast offset w)
    (h : Chained (nextIndex next input) (offset + input.recordSize) inputs written) :
    Chained next offset (input :: inputs) (w :: written) := by
  have hnext := toNat_nextIndex hload hfits
  have hothers := hat.others
  have hrange : ∀ version ∈ w.auxes.map Vernaux.other, next.toNat ≤ version.toNat
      ∧ version.toNat < next.toNat + input.neededVersions.length := by
    intro version hmem
    rw [hothers] at hmem
    obtain ⟨verdef, hneeded, rfl⟩ := mem_map.mp hmem
    obtain ⟨heq, hlt⟩ := outputVersion_lt hload hwell hmap hneeded
    omega
  have hneeds : w.needs.isSome ↔ 0 < input.versionCount := by
    rw [hagrees.needs, hat.count]
  refine ⟨?_, forall_mem_cons.mpr ⟨hagrees, h.agrees⟩, ?_, ?_, ?_, ?_, fun version hmem => ?_⟩
  · rw [map_cons, hat.source, h.sources]
  · cases hw : w.needs with
    | none =>
      rw [List.filterMap_cons_none hw]
      exact h.linked
    | some needs =>
      have hpos : 0 < input.versionCount := hneeds.mp (by rw [hw]; rfl)
      obtain ⟨hposition, hdistance⟩ := hat.needs needs (by rw [hw]; rfl)
      rw [hlast, decide_eq_true hpos, Bool.true_and] at hdistance
      rw [List.filterMap_cons_some hw]
      refine linkedBy_cons (fun hnil => ?_) (fun needs' hmem => ?_) h.linked
      · rw [hdistance, decide_eq_true (h.empty.mp hnil), if_pos rfl]
      · have hne : recordSizes inputs ≠ 0 := by
          intro hzero
          rw [h.empty.mpr hzero] at hmem
          cases hmem
        rw [decide_eq_false hne, if_neg Bool.false_ne_true] at hdistance
        have htoNat := toNat_next hpos
        rw [← hdistance] at htoNat
        refine ⟨fun hzero => ?_, ?_⟩
        · rw [hzero] at htoNat
          exact recordSize_eq_zero.mp htoNat.symm hpos
        · rw [hposition, htoNat, h.first needs' hmem]
  · cases hw : w.needs with
    | none =>
      have hzero : input.recordSize = 0 := by
        refine recordSize_eq_zero.mpr fun hpos => ?_
        have := hneeds.mpr hpos
        rw [hw] at this
        cases this
      have hfirst := h.first
      rw [hzero] at hfirst
      rw [List.filterMap_cons_none hw]
      exact hfirst
    | some needs =>
      rw [List.filterMap_cons_some hw]
      intro needs' hmem
      cases hmem
      exact (hat.needs needs (by rw [hw]; rfl)).1
  · rw [recordSizes_cons]
    cases hw : w.needs with
    | none =>
      have hzero : input.recordSize = 0 := by
        refine recordSize_eq_zero.mpr fun hpos => ?_
        have := hneeds.mpr hpos
        rw [hw] at this
        cases this
      rw [List.filterMap_cons_none hw, hzero, Nat.zero_add]
      exact h.empty
    | some needs =>
      have hpos : 0 < input.versionCount := hneeds.mp (by rw [hw]; rfl)
      have hne : input.recordSize ≠ 0 := fun hzero => recordSize_eq_zero.mp hzero hpos
      rw [List.filterMap_cons_some hw]
      exact ⟨nofun, fun hsum => by omega⟩
  · rw [outputVersions_cons]
    refine List.nodup_append.mpr ⟨?_, h.nodup, fun version hmem version' hmem' heq => ?_⟩
    · rw [hothers]
      exact nodup_outputVersions hload hwell hmap
    · subst heq
      have := (hrange version hmem).2
      have := (h.range version hmem').1
      omega
  · rw [outputVersions_cons] at hmem
    rw [numNeeded_cons]
    rcases List.mem_append.mp hmem with hmem | hmem
    · have := hrange version hmem
      omega
    · have := h.range version hmem
      omega

variable {inputs : List DynamicInput} {offset : ℕ}

theorem exists_linkFrom {sectionEnd : ℕ}
    (hload : ∀ input ∈ inputs, input.Loadable) (hwell : ∀ input ∈ inputs, input.WellVersioned)
    (hnext : verNdxGlobal < next) (hfits : next.toNat + numNeeded inputs < 2 ^ 16)
    (hend : sectionEnd = offset + recordSizes inputs) :
    ∃ states layouts written, applyNonAddressableIndexes next (inputs.map sized) = .ok states
        ∧ (states.map DynamicState.gnuVersionR).sum = recordSizes inputs
        ∧ finaliseLayouts sectionEnd offset states = .ok layouts
        ∧ layouts.mapM DynamicLayout.writeDynamicFile = .ok written
        ∧ Chained next offset inputs written := by
  induction inputs generalizing next offset with
  | nil =>
    exact ⟨[], [], [], rfl, rfl, rfl, rfl, rfl, fun w hw => absurd hw not_mem_nil, trivial,
      fun needs h => (by cases h), ⟨fun _ => rfl, fun _ => rfl⟩, List.nodup_nil,
      fun v hv => absurd hv not_mem_nil⟩
  | cons input inputs ih =>
    rw [forall_mem_cons] at hload hwell
    rw [numNeeded_cons] at hfits
    rw [recordSizes_cons] at hend
    have hfirst : next.toNat + input.neededVersions.length < 2 ^ 16 := by omega
    have htoNat := toNat_nextIndex hload.1 hfirst
    have hnext' : verNdxGlobal < nextIndex next input := by
      have hone : 1 < next.toNat := hnext
      show 1 < (nextIndex next input).toNat
      omega
    have hend' : sectionEnd = offset + input.recordSize + recordSizes inputs := by omega
    obtain ⟨states, layouts, written, happly, hsizes, hlayouts, hwritten, hchained⟩ :=
      ih hload.2 hwell.2 hnext' (by omega) hend'
    have hcount := count_needed_le hwell.1
    obtain ⟨mapping, hmap⟩ : ∃ mapping, computeVersionMapping input.needed next = .ok mapping :=
      ⟨_, computeVersionMapping_eq_ok.mpr ⟨by omega, rfl⟩⟩
    let isLast := decide (0 < input.versionCount) && decide (offset + input.recordSize = sectionEnd)
    have hlast : isLast = (decide (0 < input.versionCount) && decide (recordSizes inputs = 0)) := by
      have hiff : offset + input.recordSize = sectionEnd ↔ recordSizes inputs = 0 := by omega
      show (_ && decide (offset + input.recordSize = sectionEnd)) = _
      rw [decide_eq_decide.mpr hiff]
    obtain ⟨w, hw, hagrees, hat⟩ := exists_writeDynamicFile hload.1 hwell.1 hnext hmap isLast offset
    refine ⟨input.numbered next :: states, input.laidOut next mapping isLast offset :: layouts,
      w :: written, (applyNonAddressableIndexes_cons hload.1 _ _).mpr
        ⟨hfirst, states, happly, rfl⟩, ?_, ?_, ?_, hchained.cons hload.1 hwell.1 hfirst hmap
        hlast hagrees hat⟩
    · rw [map_cons, sum_cons, gnuVersionR_numbered, hsizes, recordSizes_cons]
    · rw [finaliseLayouts, gnuVersionR_numbered, versionCount_numbered]
      exact bind_eq_ok.mpr ⟨mapping, hmap, bind_eq_ok.mpr ⟨layouts, hlayouts, rfl⟩⟩
    · rw [List.mapM_cons, hw]
      exact bind_eq_ok.mpr ⟨w, rfl, bind_eq_ok.mpr ⟨written, hwritten, rfl⟩⟩

/-! ## What a run went through -/

variable {states : List DynamicState}

theorem mapM_sizeDynamic_eq_ok : inputs.mapM sizeDynamic = .ok states ↔
      (∀ input ∈ inputs, input.Loadable) ∧ states = inputs.map sized := by
  induction inputs generalizing states with
  | nil =>
    rw [List.mapM_nil]
    constructor
    · intro h
      exact ⟨fun input hmem => absurd hmem not_mem_nil, (Except.ok.inj h).symm⟩
    · rintro ⟨-, rfl⟩
      rfl
  | cons input inputs ih =>
    rw [List.mapM_cons, bind_eq_ok, forall_mem_cons]
    constructor
    · rintro ⟨state, hstate, hlater⟩
      obtain ⟨rest, hrest, h⟩ := bind_eq_ok.mp hlater
      obtain ⟨hload, rfl⟩ := sizeDynamic_eq_ok.mp hstate
      obtain ⟨hloads, rfl⟩ := ih.mp hrest
      exact ⟨⟨hload, hloads⟩, (Except.ok.inj h).symm⟩
    · rintro ⟨⟨hload, hloads⟩, rfl⟩
      exact ⟨_, sizeDynamic_eq_ok.mpr ⟨hload, rfl⟩, bind_eq_ok.mpr ⟨_, ih.mpr ⟨hloads, rfl⟩, rfl⟩⟩

theorem applyNonAddressableIndexes_spec (hload : ∀ input ∈ inputs, input.Loadable)
    (hnext : verNdxGlobal < next)
    (h : applyNonAddressableIndexes next (inputs.map sized) = .ok states) :
    next.toNat + numNeeded inputs < 2 ^ 16
      ∧ ∀ state ∈ states, ∃ input ∈ inputs, ∃ number, verNdxGlobal < number
        ∧ state = input.numbered number := by
  induction inputs generalizing next states with
  | nil =>
    cases h
    exact ⟨next.toNat_lt, nofun⟩
  | cons input inputs ih =>
    rw [forall_mem_cons] at hload
    obtain ⟨hfits, rest, hrest, rfl⟩ := (applyNonAddressableIndexes_cons hload.1 _ _).mp h
    have htoNat := toNat_nextIndex hload.1 hfits
    have hnext' : verNdxGlobal < nextIndex next input := by
      have hone : 1 < next.toNat := hnext
      show 1 < (nextIndex next input).toNat
      omega
    obtain ⟨hlt, hstates⟩ := ih hload.2 hnext' hrest
    rw [numNeeded_cons]
    refine ⟨by omega, forall_mem_cons.mpr
      ⟨⟨input, List.mem_cons_self, next, hnext, rfl⟩, fun state hmem => ?_⟩⟩
    obtain ⟨input', hmem', hrest'⟩ := hstates state hmem
    exact ⟨input', List.mem_cons_of_mem _ hmem', hrest'⟩

theorem mem_finaliseLayouts {sectionEnd : ℕ}
    {layouts : List DynamicLayout} (h : finaliseLayouts sectionEnd offset states = .ok layouts) :
    ∀ layout ∈ layouts, layout.state ∈ states
      ∧ computeVersionMapping layout.state.symbolVersionsNeeded layout.state.nextGnuVersionRIndex
        = .ok layout.versionMapping := by
  induction states generalizing offset layouts with
  | nil =>
    cases h
    exact nofun
  | cons state states ih =>
    obtain ⟨mapping, hmap, hlater⟩ := bind_eq_ok.mp h
    obtain ⟨rest, hrest, hok⟩ := bind_eq_ok.mp hlater
    cases hok
    refine forall_mem_cons.mpr ⟨⟨List.mem_cons_self, hmap⟩, fun layout hmem => ?_⟩
    obtain ⟨hstate, hlayout⟩ := ih hrest layout hmem
    exact ⟨List.mem_cons_of_mem _ hstate, hlayout⟩

theorem toNat_max_one (version : UInt16) : (max 1 version).toNat = max 1 version.toNat := by
  show (if 1 ≤ version then version else 1).toNat = _
  by_cases h : 1 ≤ version
  · have hnat : 1 ≤ version.toNat := h
    rw [if_pos h, Nat.max_eq_right hnat]
  · have hnat : ¬ 1 ≤ version.toNat := h
    rw [if_neg h, Nat.max_eq_left (Nat.le_of_not_le hnat)]
    rfl

variable {scriptVersions : UInt16}

theorem firstVersionIndex_eq_ok : firstVersionIndex scriptVersions = .ok next ↔
      1 + max 1 scriptVersions.toNat < 2 ^ 16 ∧ next = verNdxGlobal + max 1 scriptVersions := by
  rw [firstVersionIndex, orError_eq_ok, checkedAdd_eq_some, toNat_max_one]
  rfl

theorem toNat_first (h : 1 + max 1 scriptVersions.toNat < 2 ^ 16) :
    (verNdxGlobal + max 1 scriptVersions).toNat = 1 + max 1 scriptVersions.toNat := by
  have hone : verNdxGlobal.toNat = 1 := rfl
  rw [UInt16.toNat_add, toNat_max_one, hone, Nat.mod_eq_of_lt h]

theorem mem_written
    {written : List WrittenVersions} (h : linkVersions scriptVersions offset inputs = .ok written) :
    (∀ input ∈ inputs, input.Loadable) ∧ 1 + max 1 scriptVersions.toNat + numNeeded inputs < 2 ^ 16
      ∧ ∀ w ∈ written, ∃ number, verNdxGlobal < number
        ∧ computeVersionMapping w.input.needed number = .ok w.versionMapping := by
  obtain ⟨states, hstates, h⟩ := bind_eq_ok.mp h
  obtain ⟨hload, rfl⟩ := mapM_sizeDynamic_eq_ok.mp hstates
  obtain ⟨first, hfirst, h⟩ := bind_eq_ok.mp h
  obtain ⟨hlt, rfl⟩ := firstVersionIndex_eq_ok.mp hfirst
  obtain ⟨numbered, hnumbered, h⟩ := bind_eq_ok.mp h
  obtain ⟨layouts, hlayouts, hwritten⟩ := bind_eq_ok.mp h
  have htoNat := toNat_first hlt
  have hnext : verNdxGlobal < verNdxGlobal + max 1 scriptVersions := by
    show 1 < (verNdxGlobal + max 1 scriptVersions).toNat
    omega
  obtain ⟨hfits, hmem⟩ := applyNonAddressableIndexes_spec hload hnext hnumbered
  rw [htoNat] at hfits
  refine ⟨hload, hfits, fun w hw => ?_⟩
  obtain ⟨layout, hlayout, hwrite⟩ := (mem_of_mapM hwritten).2 w hw
  obtain ⟨hstate, hmap⟩ := mem_finaliseLayouts hlayouts layout hlayout
  obtain ⟨input, -, number, hnumber, heq⟩ := hmem _ hstate
  obtain ⟨versions, -, hwrite⟩ := bind_eq_ok.mp hwrite
  obtain ⟨needs, -, hwrite⟩ := bind_eq_ok.mp hwrite
  cases hwrite
  rw [heq] at hmap
  refine ⟨number, hnumber, ?_⟩
  rw [heq]
  exact hmap

theorem wellVersioned_of_agrees {w : WrittenVersions} {number : UInt16}
    (hload : w.input.Loadable) (hnumber : verNdxGlobal < number)
    (hmap : computeVersionMapping w.input.needed number = .ok w.versionMapping)
    (hagrees : w.Agrees) (hnodup : (w.auxes.map Vernaux.other).Nodup) :
    w.input.WellVersioned where
  named := hload.named
  dense := hload.dense
  known i hi hver := by
    obtain ⟨version, -, hof⟩ := exists_mem_zip hagrees.versions hi
    unfold WrittenVersions.IsVersionOf at hof
    rw [version_eq_getD] at hof
    have hglobal : ¬ w.input.version i ≤ verNdxGlobal := UInt16.not_le.mpr hver
    simp only [hglobal] at hof
    obtain ⟨entry, hentry, hndx, -⟩ := hof
    have hmem := (List.of_mem_zip hentry).1
    obtain ⟨hdef, hmapped⟩ := List.mem_filter.mp hmem
    rw [Bool.and_eq_true, Bool.not_eq_true'] at hmapped
    exact ⟨entry.1, hdef, hmapped.1, hndx⟩
  distinct := by
    have hneeded : w.mappedVersions = w.input.neededVersions :=
      emittedVersions_eq hload.dense hnumber hmap
    have hauxes := hagrees.auxes
    rw [hneeded] at hauxes
    have hothers : w.auxes.map Vernaux.other
        = w.input.neededVersions.map (w.input.outputVersion number) := by
      refine List.ext_getElem (by rw [length_map, length_map, hauxes.length_eq])
        fun k hk hk' => ?_
      rw [length_map] at hk hk'
      have hother := ((List.forall₂_iff_get.mp hauxes).2 k hk' hk).other
      obtain ⟨hdef, -, hisNeeded⟩ := mem_neededVersions.mp (List.getElem_mem hk')
      obtain ⟨h0, hle⟩ := hload.dense _ hdef
      rw [List.get_eq_getElem] at hother
      rw [getElem?_mapping hmap h0 hle, if_pos hisNeeded] at hother
      rw [List.getElem_map, List.getElem_map]
      exact (Option.some.inj hother).symm
    have hcompose : w.input.neededVersions.map (w.input.outputVersion number)
        = (w.input.neededVersions.map Verdef.ndx).map fun ndx =>
          number + UInt16.ofNat (rank w.input.needed (ndx.toNat - 1)) := by
      rw [List.map_map]
      rfl
    rw [hothers, hcompose] at hnodup
    exact hnodup.of_map

/-! ## All shared objects -/

/-- The version needs agree just where each shared object numbers its
versions without gaps, no loaded symbol has the base version, and all the
numbers fit. -/
theorem needsAgree_iff (scriptVersions : UInt16) (offset : ℕ) (inputs : List DynamicInput) :
    NeedsAgree scriptVersions offset inputs ↔
      (∀ input ∈ inputs, input.WellVersioned)
        ∧ 1 + max 1 scriptVersions.toNat + numNeeded inputs < 2 ^ 16 := by
  constructor
  · rintro ⟨written, hlink, hsources, hagrees, -, hnodup, -⟩
    obtain ⟨hload, hfits, hmappings⟩ := mem_written hlink
    refine ⟨fun input hmem => ?_, hfits⟩
    rw [← hsources] at hmem
    obtain ⟨w, hw, rfl⟩ := List.mem_map.mp hmem
    obtain ⟨number, hnumber, hmap⟩ := hmappings w hw
    refine wellVersioned_of_agrees (hload _ ?_) hnumber hmap (hagrees w hw) ?_
    · rw [← hsources]
      exact List.mem_map_of_mem hw
    · rw [outputVersions, List.map_flatMap] at hnodup
      exact (List.nodup_flatMap.mp hnodup).1 w hw
  · rintro ⟨hwell, hfits⟩
    have hload : ∀ input ∈ inputs, input.Loadable := by
      intro input hmem
      have hle : input.neededVersions.length ≤ numNeeded inputs :=
        List.le_sum_of_mem (List.mem_map_of_mem hmem)
      refine ⟨(hwell input hmem).named, (hwell input hmem).dense, fun i hi hver => ?_, by omega⟩
      obtain ⟨verdef, hdef, -, hndx⟩ := (hwell input hmem).known i hi hver
      rw [← hndx]
      exact ((hwell input hmem).dense verdef hdef).2
    have hlt : 1 + max 1 scriptVersions.toNat < 2 ^ 16 := by omega
    have htoNat := toNat_first hlt
    have hnext : verNdxGlobal < verNdxGlobal + max 1 scriptVersions := by
      show 1 < (verNdxGlobal + max 1 scriptVersions).toNat
      omega
    obtain ⟨states, layouts, written, happly, hsizes, hlayouts, hwritten, hchained⟩ :=
      exists_linkFrom hload hwell hnext (by omega) (Eq.refl (offset + recordSizes inputs))
    refine ⟨written, ?_, hchained.sources, hchained.agrees, hchained.linked, hchained.nodup,
      fun version hmem => ?_⟩
    · rw [linkVersions, mapM_sizeDynamic_eq_ok.mpr ⟨hload, rfl⟩, ok_bind,
        firstVersionIndex_eq_ok.mpr ⟨hlt, rfl⟩, ok_bind, happly, ok_bind, hsizes]
      exact bind_eq_ok.mpr ⟨layouts, hlayouts, hwritten⟩
    · have hge := (hchained.range version hmem).1
      show (max 1 scriptVersions).toNat < version.toNat
      rw [toNat_max_one]
      omega

/-! ## A base version that is referred to -/

/-- `liba.so` defines its base version behind `V1`. -/
def libA : SharedObject where
  libName := [0x61]
  versym := [0, 1, 2]
  verdef := some [⟨1, 0, [[0x56, 0x31]]⟩, ⟨2, verFlgBase, [[0x61]]⟩]
  verdefnum := 2
  oneBase := by decide

/-- `libb.so` defines its base version first. -/
def libB : SharedObject where
  libName := [0x62]
  versym := [0, 2]
  verdef := some [⟨1, verFlgBase, [[0x62]]⟩, ⟨2, 0, [[0x56, 0x32]]⟩]
  verdefnum := 2
  oneBase := by decide

/-- The symbols with these indices are loaded. -/
def loaded (object : SharedObject) (referenced : List ℕ) : DynamicInput :=
  ⟨object, referenced, 0, 0, ⟨0, 0, 0, 0, 0⟩, fun _ => ⟨0, 0, 0, 0, 0⟩⟩

/-- The symbol of the base version gets index 2, which is that of `V2` of
the other shared object. -/
theorem base_version_takes_the_next_index :
    ¬ NeedsAgree 0 0 [loaded libA [2], loaded libB [1]] := by
  rintro ⟨written, hlink, -, hagrees, -⟩
  cases hlink
  have hvers := (hagrees _ List.mem_cons_self).versions
  obtain ⟨version, -, hof⟩ := exists_mem_zip hvers (a := 2) (List.mem_singleton.mpr rfl)
  obtain ⟨entry, hentry, -⟩ := hof
  cases hentry

end Sld.Dynamic
