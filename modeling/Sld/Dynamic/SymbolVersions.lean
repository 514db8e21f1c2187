/-
# `Dynamic.SymbolVersions` — when the versions stand beside their symbols

A definition of a linker script takes an entry of `.dynsym` and no version.
Within its chunk the versions of the definitions behind it move up, and the
last slots of the chunk keep what they held before.

    writeDefinitions_spec       what one chunk writes
    KeepsPlace                  the chunks where this makes no difference
    dynsym_consistent_iff       the indices agree, the versions just then
-/
import Sld.Dynamic.SymbolIndices

namespace Sld.Dynamic

open Text.Reader (bind_eq_ok)

namespace DynamicOutput

variable {output : DynamicOutput}

/-! ## A chunk -/

def isFromLinkerScript (output : DynamicOutput) (symDef : DynamicSymbolDefinition) : Bool :=
  match output.fileForSymbol symDef.symbolId.toNat with
  | some file => file.kind = .linkerScript
  | none => false

/-- The version of a definition; where it cannot be read the link fails. -/
def definitionVersion (output : DynamicOutput) (symDef : DynamicSymbolDefinition) : UInt16 :=
  (output.versionOf (.definition symDef)).toOption.getD verNdxGlobal

variable {symDef : DynamicSymbolDefinition} {version : UInt16}

theorem versionOf_of_eq_ok (h : output.versionOf (.definition symDef) = .ok version) :
    output.versionOf (.definition symDef) = .ok (output.definitionVersion symDef) := by
  rw [definitionVersion, h]
  rfl

/-- Definitions in a slice of the tables: entries for all, versions for
those that no linker script defines. -/
structure WroteDefinitions (output : DynamicOutput) (symDefs : List DynamicSymbolDefinition)
    (w w' : TableWriter) : Prop where
  dynsym : w'.dynsym = w.dynsym ++ symDefs.map .definition
  isSome : w'.versymFree.isSome = w.versymFree.isSome
  versym : w.versymFree.isSome = true → w'.versym = w.versym
    ++ (symDefs.filter fun symDef => !output.isFromLinkerScript symDef).map output.definitionVersion
  known : w.versymFree.isSome = true → ∀ symDef ∈ symDefs,
    output.versionOf (.definition symDef) = .ok (output.definitionVersion symDef)

theorem wroteDefinitions_versioned {w w₁ w₂ : TableWriter}
    (hscript : output.isFromLinkerScript symDef = false)
    (hsym : w.defineSymbol (.definition symDef) = .ok w₁)
    (hver : w₁.setNextSymbolVersion version = .ok w₂)
    (hof : w.versymFree.isSome = true → output.versionOf (.definition symDef) = .ok version) :
    output.WroteDefinitions [symDef] w w₂ := by
  have hfilter : ([symDef].filter fun symDef => !output.isFromLinkerScript symDef) = [symDef] :=
    List.filter_cons_of_pos (by rw [hscript]; rfl)
  obtain ⟨-, rfl⟩ := defineSymbol_eq_ok hsym
  rcases setNextSymbolVersion_eq_ok hver with ⟨hnone, rfl⟩ | ⟨free, hsome, rfl⟩
  · have hw : w.versymFree = none := hnone
    have habsurd : ¬ w.versymFree.isSome = true := by
      rw [hw]
      decide
    exact ⟨rfl, rfl, fun h => absurd h habsurd, fun h => absurd h habsurd⟩
  · have hw : w.versymFree = some (free + 1) := hsome
    have hw' : w.versymFree.isSome = true := by
      rw [hw]
      rfl
    have heq : output.definitionVersion symDef = version := by
      rw [definitionVersion, hof hw']
      rfl
    refine ⟨rfl, hw'.symm, fun _ => ?_, fun _ d hd => ?_⟩
    · rw [hfilter, List.map_cons, heq]
      rfl
    · obtain rfl := List.mem_singleton.mp hd
      exact versionOf_of_eq_ok (hof hw')

theorem writeDefinition_wrote {w w' : TableWriter}
    (h : output.writeDefinition symDef w = .ok w') : output.WroteDefinitions [symDef] w w' := by
  unfold writeDefinition at h
  cases hfile : output.fileForSymbol symDef.symbolId.toNat with
  | none =>
    rw [hfile] at h
    cases h
  | some file =>
    rw [hfile] at h
    obtain ⟨kind, start, symbols⟩ := file
    have hscript : output.isFromLinkerScript symDef = decide (kind = .linkerScript) := by
      rw [isFromLinkerScript, hfile]
    have hof : output.versionOf (.definition symDef)
        = output.fileVersion symDef.symbolId.toNat symDef.version := rfl
    rw [fileVersion, hfile] at hof
    cases kind with
    | prelude | object =>
      obtain ⟨w₁, hsym, hver⟩ := bind_eq_ok.mp h
      exact wroteDefinitions_versioned hscript hsym hver fun _ => hof
    | dynamic versymIn versionMapping =>
      obtain ⟨w₁, hsym, hver⟩ := bind_eq_ok.mp h
      have hfree : w₁.versymFree = w.versymFree := by
        rw [(defineSymbol_eq_ok hsym).2]
      cases hversym : w₁.versymFree with
      | none =>
        rw [hversym] at hver
        obtain rfl := Except.ok.inj hver
        have hset : w₁.setNextSymbolVersion verNdxGlobal = .ok w₁ := by
          rw [TableWriter.setNextSymbolVersion, hversym]
        refine wroteDefinitions_versioned hscript hsym hset fun hsome => ?_
        rw [← hfree, hversym] at hsome
        cases hsome
      | some free =>
        rw [hversym] at hver
        obtain ⟨version, hcopied, hver⟩ := bind_eq_ok.mp hver
        exact wroteDefinitions_versioned hscript hsym hver fun _ => hof.trans hcopied
    | linkerScript =>
      have hfilter : ([symDef].filter fun symDef => !output.isFromLinkerScript symDef) = [] :=
        List.filter_cons_of_neg (by rw [hscript]; decide)
      obtain ⟨-, rfl⟩ := defineSymbol_eq_ok h
      refine ⟨rfl, rfl, fun _ => ?_, fun _ d hd => ?_⟩
      · rw [hfilter, List.map_nil, List.append_nil]
      · obtain rfl := List.mem_singleton.mp hd
        exact versionOf_of_eq_ok hof
    | syntheticSymbols => cases h
    | notLoaded => cases h

theorem WroteDefinitions.cons {symDef : DynamicSymbolDefinition}
    {symDefs : List DynamicSymbolDefinition} {w w' w'' : TableWriter}
    (h : output.WroteDefinitions [symDef] w w') (h' : output.WroteDefinitions symDefs w' w'') :
    output.WroteDefinitions (symDef :: symDefs) w w'' where
  dynsym := by
    rw [h'.dynsym, h.dynsym, List.append_assoc]
    rfl
  isSome := h'.isSome.trans h.isSome
  versym hsome := by
    rw [h'.versym (h.isSome.trans hsome), h.versym hsome, List.append_assoc, ← List.map_append,
      ← List.filter_append]
    rfl
  known hsome d hd := by
    cases hd with
    | head => exact h.known hsome symDef List.mem_cons_self
    | tail _ hd => exact h'.known (h.isSome.trans hsome) d hd

variable {symDefs : List DynamicSymbolDefinition}

theorem foldlM_writeDefinition {w w' : TableWriter}
    (h : symDefs.foldlM (fun w symDef => output.writeDefinition symDef w) w = .ok w') :
    output.WroteDefinitions symDefs w w' := by
  induction symDefs generalizing w with
  | nil =>
    cases h
    exact ⟨(List.append_nil _).symm, rfl, fun _ => (List.append_nil _).symm,
      nofun⟩
  | cons symDef symDefs ih =>
    obtain ⟨w₁, hfirst, h⟩ := bind_eq_ok.mp h
    exact (writeDefinition_wrote hfirst).cons (ih h)

/-- The definitions of a chunk that get a version. -/
def versioned (output : DynamicOutput) (chunk : List DynamicSymbolDefinition) :
    List DynamicSymbolDefinition :=
  chunk.filter fun symDef => !output.isFromLinkerScript symDef

theorem writeDefinitions_spec {chunk : List DynamicSymbolDefinition} {w : TableWriter}
    (h : output.writeDefinitions chunk = .ok w) :
    w.dynsym = chunk.map .definition ∧ (output.versionsEmitted = true →
      w.versym = (output.versioned chunk).map output.definitionVersion ∧ ∀ symDef ∈ chunk,
          output.versionOf (.definition symDef) = .ok (output.definitionVersion symDef)) := by
  have hwrote := foldlM_writeDefinition h
  refine ⟨hwrote.dynsym, fun hemitted => ?_⟩
  cases chunk with
  | nil =>
    cases h
    exact ⟨rfl, nofun⟩
  | cons symDef chunk =>
    have hsome : (TableWriter.empty (symDef :: chunk).length
        output.versionsEmitted).versymFree.isSome = true := by
      rw [TableWriter.empty, hemitted]
      rfl
    exact ⟨hwrote.versym hsome, hwrote.known hsome⟩

/-! ## Slots -/

theorem forall₂_append_iff {α β : Type} {R : α → β → Prop} {xs xs' : List α} {ys ys' : List β}
    (h : xs.length = ys.length) :
    List.Forall₂ R (xs ++ xs') (ys ++ ys') ↔ List.Forall₂ R xs ys ∧ List.Forall₂ R xs' ys' := by
  induction xs generalizing ys with
  | nil =>
    obtain rfl := List.eq_nil_of_length_eq_zero h.symm
    exact (and_iff_right .nil).symm
  | cons x xs ih =>
    cases ys with
    | nil => cases h
    | cons y ys =>
      rw [List.cons_append, List.cons_append, List.forall₂_cons, List.forall₂_cons,
        ih (Nat.succ.inj h), and_assoc]

theorem getElem?_fillSlots (written old : List UInt16) (i : ℕ) :
    (fillSlots written old)[i]? = written[i]?.or old[i]? := by
  unfold fillSlots
  by_cases hi : i < written.length
  · rw [List.getElem?_append_left hi, List.getElem?_eq_getElem hi, Option.some_or]
  · have hle : written.length ≤ i := Nat.le_of_not_lt hi
    rw [List.getElem?_append_right hle, List.getElem?_drop, Nat.add_sub_cancel' hle,
      List.getElem?_eq_none hle, Option.none_or]

/-- The definitions of a chunk over slots which held `old`: slot `i` gets the
version of the `i`-th definition that no linker script makes, or keeps what
it held, and this is the version of definition `i`. -/
def KeepsPlace (output : DynamicOutput) (chunk : List DynamicSymbolDefinition)
    (old : List UInt16) : Prop :=
  ∀ (i : ℕ) (symDef : DynamicSymbolDefinition), chunk[i]? = some symDef →
    ((output.versioned chunk)[i]?.map output.definitionVersion).or (old[i]?)
      = some (output.definitionVersion symDef)

/-- The chunks lie one behind the other. -/
def ChunksKeep (output : DynamicOutput) :
    List (List DynamicSymbolDefinition) → List UInt16 → Prop
  | [], _ => True
  | chunk :: chunks, old =>
    output.KeepsPlace chunk old ∧ ChunksKeep output chunks (old.drop chunk.length)

theorem length_versioned_le (chunk : List DynamicSymbolDefinition) :
    (output.versioned chunk).length ≤ chunk.length := List.length_filter_le _ _

theorem forall₂_versions_iff {versions : List UInt16} (hknown : ∀ symDef ∈ symDefs,
      output.versionOf (.definition symDef) = .ok (output.definitionVersion symDef)) :
    List.Forall₂ (fun entry version => output.versionOf entry = .ok version)
        (symDefs.map .definition) versions
      ↔ versions = symDefs.map output.definitionVersion := by
  induction symDefs generalizing versions with
  | nil => exact List.forall₂_nil_left_iff
  | cons symDef symDefs ih =>
    have hrest := fun rest => @ih rest fun d hd => hknown d (List.mem_cons_of_mem _ hd)
    rw [List.map_cons, List.map_cons, List.forall₂_cons_left_iff]
    constructor
    · rintro ⟨version, rest, hver, hforall, rfl⟩
      have hhead : output.definitionVersion symDef = version :=
        Except.ok.inj ((hknown symDef List.mem_cons_self).symm.trans hver)
      rw [hhead, (hrest rest).mp hforall]
    · rintro rfl
      exact ⟨_, _, hknown symDef List.mem_cons_self, (hrest _).mpr rfl, rfl⟩

theorem fillSlots_eq_iff {chunk : List DynamicSymbolDefinition} {old : List UInt16} :
    fillSlots ((output.versioned chunk).map output.definitionVersion) (old.take chunk.length)
        = chunk.map output.definitionVersion
      ↔ output.KeepsPlace chunk old := by
  have hslot : ∀ i, i < chunk.length →
      (fillSlots ((output.versioned chunk).map output.definitionVersion) (old.take chunk.length))[i]?
        = ((output.versioned chunk)[i]?.map output.definitionVersion).or old[i]? := by
    intro i hi
    rw [getElem?_fillSlots, List.getElem?_map, List.getElem?_take_of_lt hi]
  constructor
  · intro heq i symDef hi
    have hlt : i < chunk.length := (List.getElem?_eq_some_iff.mp hi).1
    rw [← hslot i hlt, heq, List.getElem?_map, hi]
    rfl
  · intro hkeeps
    refine List.ext_getElem? fun i => ?_
    by_cases hi : i < chunk.length
    · rw [hslot i hi, List.getElem?_map, List.getElem?_eq_getElem hi]
      exact hkeeps i _ (List.getElem?_eq_getElem hi)
    · have hle : chunk.length ≤ i := Nat.le_of_not_lt hi
      have hshort := @length_versioned_le output chunk
      rw [getElem?_fillSlots, List.getElem?_map, List.getElem?_map,
        List.getElem?_eq_none (Nat.le_trans hshort hle), List.getElem?_eq_none hle,
        List.getElem?_eq_none (Nat.le_trans (List.length_take_le _ _) hle)]
      rfl

variable {chunks : List (List DynamicSymbolDefinition)}

theorem writeChunks_spec {old : List UInt16}
    {written : List DynsymEntry × List UInt16} (hold : chunks.flatten.length ≤ old.length)
    (h : output.writeChunks chunks old = .ok written) :
    written.1 = chunks.flatten.map .definition ∧ (output.versionsEmitted = true →
      (List.Forall₂ (fun entry version => output.versionOf entry = .ok version) written.1 written.2
        ↔ output.ChunksKeep chunks old)) := by
  induction chunks generalizing old written with
  | nil =>
    cases h
    exact ⟨rfl, fun _ => iff_of_true .nil trivial⟩
  | cons chunk chunks ih =>
    rw [List.flatten_cons, List.length_append] at hold
    unfold writeChunks at h
    obtain ⟨w, hw, h⟩ := bind_eq_ok.mp h
    obtain ⟨behind, hbehind, h⟩ := bind_eq_ok.mp h
    cases h
    obtain ⟨hdynsym, hversym⟩ := writeDefinitions_spec hw
    have hrest : chunks.flatten.length ≤ (old.drop chunk.length).length := by
      rw [List.length_drop]
      omega
    obtain ⟨hdynsymRest, hversionsRest⟩ := ih hrest hbehind
    refine ⟨?_, fun hemitted => ?_⟩
    · rw [hdynsym, hdynsymRest, List.flatten_cons, List.map_append]
    · obtain ⟨heq, hknown⟩ := hversym hemitted
      have hfirst := (forall₂_versions_iff hknown).trans (@fillSlots_eq_iff output chunk old)
      rw [← heq, ← hdynsym] at hfirst
      have hlen : w.dynsym.length = (fillSlots w.versym (old.take chunk.length)).length := by
        have hshort := @length_versioned_le output chunk
        rw [hdynsym, heq, fillSlots, List.length_append, List.length_drop, List.length_take,
          List.length_map, List.length_map]
        omega
      rw [ChunksKeep, ← hfirst, ← hversionsRest hemitted]
      exact forall₂_append_iff hlen

theorem sum_sizeForGroup : (output.groups.map output.sizeForGroup).sum
    = numSlots (output.groups.map output.sizeForGroup).sum * symtabEntrySize := by
  refine (Nat.div_mul_cancel (List.dvd_sum fun n hn => ?_)).symm
  obtain ⟨files, -, rfl⟩ := List.mem_map.mp hn
  exact ⟨_, ((Nat.mul_comm _ _).trans (sizeForGroup_eq files)).symm⟩

theorem totalSlots_eq : output.totalSlots
    = numSlots (output.groups.map output.sizeForGroup).sum + numSlots output.sizeForEpilogue :=
  Nat.add_div_of_dvd_right ⟨_, sum_sizeForGroup.trans (Nat.mul_comm _ _)⟩

theorem epilogueOffset_eq : output.epilogueOffset
    = output.offsetOf (output.slotsOfGroups output.groups) := by
  rw [epilogueOffset, sum_sizeForGroup, numSlots_sum]
  rfl

theorem writeTables_eq_ok {layout : DynsymLayout} {old : output.OldVersions} {tables : DynsymTables}
    (h : output.writeTables layout chunks old = .ok tables) :
    ∃ groups definitions : List DynsymEntry × List UInt16,
      output.writeGroups output.groups layout.groups old.slots = .ok groups
        ∧ output.writeChunks chunks
            (old.slots.drop (numSlots (output.groups.map output.sizeForGroup).sum)) = .ok definitions
        ∧ numSlots output.sizeForEpilogue = output.definitions.length
        ∧ tables = ⟨groups.1 ++ definitions.1,
            if output.gnuVersionEnabled then some (groups.2 ++ definitions.2) else none⟩ := by
  simp only [writeTables] at h
  obtain ⟨groups, hgroups, h⟩ := bind_eq_ok.mp h
  split at h
  · cases h
  · next hspace =>
    obtain ⟨definitions, hdefs, h⟩ := bind_eq_ok.mp h
    split at h
    · cases h
    · next hunused =>
      exact ⟨groups, definitions, hgroups, hdefs,
        Nat.le_antisymm (Nat.le_of_not_lt hunused) (Nat.le_of_not_lt hspace),
        (Except.ok.inj h).symm⟩

/-- The entries have their indices; the versions agree just when every chunk
has its versions in place. -/
theorem dynsym_consistent_iff {layout : DynsymLayout}
    {chunks : List (List DynamicSymbolDefinition)} {old : output.OldVersions}
    {tables : DynsymTables} (hlayout : output.layoutDynsym = .ok layout)
    (hchunks : chunks.flatten = output.definitions)
    (hwrite : output.writeTables layout chunks old = .ok tables) :
    (output.IndicesAgree layout tables ∧ output.VersionsAgree tables)
      ↔ (output.gnuVersionEnabled = true → output.ChunksKeep chunks
          (old.slots.drop (numSlots (output.groups.map output.sizeForGroup).sum))) := by
  unfold layoutDynsym at hlayout
  obtain ⟨laidOut, hgroups, hrest⟩ := Text.Reader.bind_eq_ok.mp hlayout
  obtain ⟨taken, htaken, hstart⟩ := Text.Reader.bind_eq_ok.mp hrest
  cases hstart
  obtain ⟨groups, definitions, hwriteGroups, hwriteChunks, hsize, rfl⟩ := writeTables_eq_ok hwrite
  rw [epilogueOffset_eq] at htaken
  obtain rfl := takeDynsymIndex_eq_ok htaken
  have hbase : output.offsetOf 0 = output.dynsymAddress := by
    rw [offsetOf, Nat.zero_mul, Nat.add_zero]
  rw [← hbase] at hgroups
  obtain ⟨hassign, hlen, hvers⟩ := writeGroups_spec (fun _ h => h) hgroups hwriteGroups
  have hold : chunks.flatten.length
      ≤ (old.slots.drop (numSlots (output.groups.map output.sizeForGroup).sum)).length := by
    rw [hchunks, List.length_drop, old.length_slots, totalSlots_eq, Nat.add_sub_cancel_left, hsize]
  obtain ⟨hdynsym, hchunkVersions⟩ := writeChunks_spec hold hwriteChunks
  have hidxs : output.assignedIndices ⟨laidOut, output.slotsOfGroups output.groups⟩
      = numberedFrom 0 (groups.1 ++ definitions.1) := by
    rw [assignedIndices, hassign, numberedFrom_append, hdynsym, hchunks, hlen, Nat.zero_add]
  have hagree : output.IndicesAgree ⟨laidOut, output.slotsOfGroups output.groups⟩
      ⟨groups.1 ++ definitions.1,
        if output.gnuVersionEnabled then some (groups.2 ++ definitions.2) else none⟩ := by
    intro index entry
    rw [hidxs, mem_numberedFrom]
    constructor
    · intro hentry
      exact ⟨index, hentry, (Nat.zero_add _).symm⟩
    · rintro ⟨i, hi, rfl⟩
      rw [Nat.zero_add]
      exact hi
  refine (and_iff_right hagree).trans ?_
  cases hgnu : output.gnuVersionEnabled with
  | false =>
    refine iff_of_true (fun versym hversym => ?_) (fun h => ?_)
    · cases hversym
    · cases h
  | true =>
    have hemitted : output.versionsEmitted = true := (Bool.and_eq_true_iff.mp hgnu).1
    refine Iff.trans ?_ ((hchunkVersions hemitted).trans ⟨fun h _ => h, fun h => h rfl⟩)
    have hboth : List.Forall₂ (fun entry version => output.versionOf entry = .ok version)
        (groups.1 ++ definitions.1) (groups.2 ++ definitions.2) ↔ _ :=
      forall₂_append_iff (hvers hemitted).length_eq
    constructor
    · intro hversym
      exact (hboth.mp (hversym _ rfl)).2
    · intro hforall versym hversym
      cases hversym
      exact hboth.mpr ⟨hvers hemitted, hforall⟩

/-- A shared object with a symbol `a` of the linker script and a symbol `b`
of an object, which the version script puts into its versions 2 and 3. -/
def scriptAndObject : DynamicOutput where
  outputKind := .sharedObject
  groups := [[⟨.prelude, 0, [⟨true, false, false, false, false⟩]⟩],
    [⟨.object, 1, [⟨true, true, false, false, false⟩]⟩],
    [⟨.linkerScript, 2, [⟨true, true, false, false, false⟩]⟩]]
  numbered := by decide
  definitions := [⟨2, [97], gnuHash [97], 2⟩, ⟨1, [98], gnuHash [98], 3⟩]
  usesVersions := true
  dynsymAddress := 0x1000

def scriptAndObjectFresh : scriptAndObject.OldVersions := ⟨[0, 0, 0], rfl⟩

def scriptAndObjectLayout : DynsymLayout where
  groups := [[⟨⟨.prelude, 0, [⟨true, false, false, false, false⟩]⟩, [], some 0⟩],
    [⟨⟨.object, 1, [⟨true, true, false, false, false⟩]⟩,
      [some ⟨⟨true, true, false, false, false⟩, none⟩], none⟩],
    [⟨⟨.linkerScript, 2, [⟨true, true, false, false, false⟩]⟩, [], none⟩]]
  dynsymStartIndex := 1

def scriptAndObjectTables : DynsymTables where
  dynsym := [.null, .definition ⟨2, [97], gnuHash [97], 2⟩, .definition ⟨1, [98], gnuHash [98], 3⟩]
  versym := some [1, 3, 0]

theorem scriptAndObject_layout : scriptAndObject.layoutDynsym = .ok scriptAndObjectLayout := rfl

theorem scriptAndObject_tables : scriptAndObject.writeTables scriptAndObjectLayout
    [scriptAndObject.definitions] scriptAndObjectFresh = .ok scriptAndObjectTables := rfl

/-- Its `.gnu.version` has the version of `b` for `a` and none for `b`. -/
theorem linker_script_version_moves_up :
    ¬ ∀ (output : DynamicOutput) (layout : DynsymLayout)
      (chunks : List (List DynamicSymbolDefinition)) (old : output.OldVersions)
      (tables : DynsymTables), output.layoutDynsym = .ok layout →
      chunks.flatten = output.definitions → output.writeTables layout chunks old = .ok tables →
      output.IndicesAgree layout tables ∧ output.VersionsAgree tables := by
  intro hall
  have hvers := (hall _ _ _ _ _ scriptAndObject_layout rfl scriptAndObject_tables).2
  have hdefs := (List.forall₂_cons.mp (hvers _ rfl)).2
  have hscript : scriptAndObject.versionOf (.definition ⟨2, [97], gnuHash [97], 2⟩) = .ok 3 :=
    (List.forall₂_cons.mp hdefs).1
  exact absurd (Except.ok.inj hscript) (by decide)

theorem scriptAndObject_consistent_iff :
    (scriptAndObject.IndicesAgree scriptAndObjectLayout scriptAndObjectTables
        ∧ scriptAndObject.VersionsAgree scriptAndObjectTables)
      ↔ (scriptAndObject.gnuVersionEnabled = true →
        scriptAndObject.ChunksKeep [scriptAndObject.definitions] [0, 0]) :=
  dynsym_consistent_iff scriptAndObject_layout rfl scriptAndObject_tables

end DynamicOutput

end Sld.Dynamic
