/-
# `Incremental.TargetLookup` — which symbol a target is taken for

A record does not say which symbol the relocation was linked against, only
what it was called and where it stood.  In a new version of the object the
first symbol of that name is taken for it.

    Identifies       the pass takes the symbol for the target of the record
    identifies_iff   when it does
-/
import Sld.Incremental.RelocationPasses

namespace Sld.Incremental

open Text (hexDecode)
open Text.Reader (ok_bind bind_eq_ok)

/-- Where a symbol stands, if it is in a section. -/
def ObjectSymbol.position (symbol : ObjectSymbol) : Option SymbolPosition :=
  symbol.sectionIndex.map fun index => ⟨index, symbol.address⟩

/-- Where a record has its target. -/
def RelocationTargetRecord.position (target : RelocationTargetRecord) : SymbolPosition :=
  ⟨target.sectionIndex, target.sectionOffset⟩

/-- A record whose target lies in an object of the input, and a symbol of
that object with the name of the target. -/
structure TargetIn (path : Text) (version : InputVersion) (r : RelocationRecord)
    (target : RelocationTargetRecord) (name : Text) (symbols : List ObjectSymbol)
    (symbol : ObjectSymbol) : Prop where
  targetIn : r.targetIn path = some (target, name)
  object : ∃ bytes, version target.input = .ok (some bytes) ∧ bytes.symbols = .ok symbols
  mem : symbol ∈ symbols
  named : hexDecode name = some symbol.nameBytes

/-- If the symbol has not moved, nothing is done; otherwise its position is
the one that the pass goes by. -/
structure Identifies (kinds : RelocationKinds) (path : Text) (version : InputVersion)
    (r : RelocationRecord) (target : RelocationTargetRecord) (name : Text)
    (symbol : ObjectSymbol) : Prop where
  still : symbol.position = some target.position →
    relocationTargetPatch kinds path version r = .ok (.unchanged r)
  moved : symbol.position ≠ some target.position → version.position target name = .ok symbol.position

section

variable {kinds : RelocationKinds} {path : Text} {version : InputVersion} {r : RelocationRecord}
  {target : RelocationTargetRecord} {name : Text} {symbols : List ObjectSymbol}
  {symbol first : ObjectSymbol}

section

variable (h : TargetIn path version r target name symbols symbol)

include h

theorem TargetIn.exists_first :
    ∃ first, symbols.find? (fun s => s.nameBytes = symbol.nameBytes) = some first := by
  refine Option.isSome_iff_exists.mp (List.find?_isSome.mpr ⟨symbol, h.mem, ?_⟩)
  exact decide_eq_true rfl

theorem TargetIn.position_eq
    (hfirst : symbols.find? (fun s => s.nameBytes = symbol.nameBytes) = some first) :
    version.position target name = .ok first.position := by
  obtain ⟨bytes, hbytes, hsyms⟩ := h.object
  have hname : Text.Reader.orError "Malformed incremental relocation target name" (hexDecode name)
      = .ok symbol.nameBytes := by
    rw [h.named]
    rfl
  unfold InputVersion.position
  rw [hbytes]
  show (do symbolPositionByName (← bytes.symbols) name) = _
  rw [hsyms, ok_bind]
  unfold symbolPositionByName
  rw [hname, ok_bind]
  simp only [hfirst]
  rfl

theorem TargetIn.unchanged_iff {position : Option SymbolPosition}
    (hpos : version.position target name = .ok position) :
    relocationTargetPatch kinds path version r = .ok (.unchanged r)
      ↔ position = none ∨ position = some target.position := by
  unfold relocationTargetPatch
  simp only [h.targetIn, hpos, ok_bind]
  cases position with
  | none => exact iff_of_true rfl (.inl rfl)
  | some current =>
    constructor
    · intro hunchanged
      simp only at hunchanged
      split at hunchanged
      · next hsame => exact .inr (by rw [RelocationTargetRecord.position, ← hsame.1, ← hsame.2])
      · split at hunchanged
        · cases hunchanged
        · unfold moveTarget at hunchanged
          obtain ⟨previous, -, hunchanged⟩ := bind_eq_ok.mp hunchanged
          obtain ⟨written, -, hunchanged⟩ := bind_eq_ok.mp hunchanged
          obtain ⟨data, -, hunchanged⟩ := bind_eq_ok.mp hunchanged
          obtain ⟨value, -, hunchanged⟩ := bind_eq_ok.mp hunchanged
          cases congrArg PassedRecord.outputPatch (Except.ok.inj hunchanged)
    · rintro (hnone | hsome)
      · cases hnone
      · cases hsome
        exact if_pos ⟨rfl, rfl⟩

end

/-- The symbol is taken for the target exactly if the first symbol of the
name stands where it does, or, for a symbol that has not moved, in no section. -/
theorem identifies_iff (h : TargetIn path version r target name symbols symbol) :
    Identifies kinds path version r target name symbol
      ↔ ∃ first, symbols.find? (fun s => s.nameBytes = symbol.nameBytes) = some first
        ∧ (first.position = symbol.position
          ∨ (symbol.position = some target.position ∧ first.sectionIndex = none)) := by
  obtain ⟨first, hfirst⟩ := h.exists_first
  have hpos := h.position_eq hfirst
  constructor
  · intro hid
    refine ⟨first, hfirst, ?_⟩
    by_cases hstill : symbol.position = some target.position
    · rcases (h.unchanged_iff hpos).mp (hid.still hstill) with hnone | hsame
      · exact .inr ⟨hstill, Option.map_eq_none_iff.mp hnone⟩
      · exact .inl (hsame.trans hstill.symm)
    · exact .inl (Except.ok.inj (hpos.symm.trans (hid.moved hstill)))
  · rintro ⟨first', hfirst', hcases⟩
    cases hfirst.symm.trans hfirst'
    rcases hcases with hsame | ⟨hstill, hnone⟩
    · refine ⟨fun hstill => (h.unchanged_iff hpos).mpr (.inr (hsame.trans hstill)), fun _ => ?_⟩
      rw [hpos, hsame]
    · refine ⟨fun _ => (h.unchanged_iff hpos).mpr (.inl ?_), fun hmoved => absurd hstill hmoved⟩
      exact Option.map_eq_none_iff.mpr hnone

end

/-! ## Two symbols of one name -/

/-- Symbols called `duplicate` at the given offsets of the first section. -/
def duplicateSymbols (offsets : List UInt64) : List ObjectSymbol :=
  offsets.map fun offset => ⟨[100, 117, 112], some 1, offset⟩

def duplicateVersion (offsets : List UInt64) : InputVersion := fun _ =>
  .ok (some ⟨.ok (duplicateSymbols offsets), none⟩)

def duplicateTarget : RelocationTargetRecord := ⟨"612e6f".toList, "612e6f".toList, 1, 512⟩

/-- A relocation that was linked against the symbol at the offset 512. -/
def duplicateRecord : RelocationRecord where
  targetSymbolId := 2
  writtenValue := some 8192
  targetValue := 8192
  targetName := some "647570".toList
  target := some duplicateTarget
  inputFile := "612e6f".toList
  input := "612e6f".toList
  sectionIndex := 2
  relocationOffset := 0
  outputOffset := 0
  size := 8
  kind := 1
  addend := 0

theorem targetIn_duplicate {offsets : List UInt64} (h : 512 ∈ offsets) :
    TargetIn "612e6f".toList (duplicateVersion offsets) duplicateRecord duplicateTarget
      "647570".toList (duplicateSymbols offsets) ⟨[100, 117, 112], some 1, 512⟩ where
  targetIn := rfl
  object := ⟨_, rfl, rfl⟩
  mem := List.mem_map_of_mem h
  named := rfl

theorem identifies_first : Identifies (fun _ => none) "612e6f".toList (duplicateVersion [512, 256])
    duplicateRecord duplicateTarget "647570".toList ⟨[100, 117, 112], some 1, 512⟩ :=
  (identifies_iff (targetIn_duplicate List.mem_cons_self)).mpr ⟨_, rfl, .inl rfl⟩

/-- Nothing has moved, and the relocation is pointed at the other symbol. -/
theorem duplicate_is_mistaken :
    TargetIn "612e6f".toList (duplicateVersion [256, 512]) duplicateRecord duplicateTarget
      "647570".toList (duplicateSymbols [256, 512]) ⟨[100, 117, 112], some 1, 512⟩
    ∧ ¬ Identifies (fun _ => none) "612e6f".toList (duplicateVersion [256, 512])
      duplicateRecord duplicateTarget "647570".toList ⟨[100, 117, 112], some 1, 512⟩ := by
  refine ⟨targetIn_duplicate (List.mem_cons_of_mem _ (List.mem_singleton_self _)), fun hid => ?_⟩
  obtain ⟨passed, hpassed, hpatch⟩ : ∃ passed, relocationTargetPatch (fun _ => none)
      "612e6f".toList (duplicateVersion [256, 512]) duplicateRecord = .ok passed
      ∧ passed.record.targetValue = 7936 := ⟨_, rfl, rfl⟩
  have hstill := hid.still rfl
  rw [hpassed] at hstill
  cases hstill
  cases hpatch

end Sld.Incremental
