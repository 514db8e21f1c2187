/-
# `Incremental.RelocationPasses` — one record through the passes of a patch

A record describes the output when writing its value into its field
changes nothing.  A pass that moves a value leaves a patch that writes the
moved one over the old (`PassStep`), and it moves the value by as much as
the offset of the target or the addend moves, so the distance between them
stays (`RelocationRecord.base`).  Through a whole patch a record goes
through two passes for each changed input; what they do to it together is
`RecordChain`.
-/
import Sld.Incremental.RelocationPatches

namespace Sld.Incremental

open Text.Reader (bind_eq_ok orError_eq_ok)
open Store (window window_congr)
open Except (ok)

/-! ## The field of a record -/

/-- A later value takes the place of an earlier one. -/
def InstructionRelocation.Replaces (relInfo : InstructionRelocation) : Prop :=
  ∀ value earlier old new, relInfo.writeToBuffer earlier old = .ok new →
    relInfo.writeToBuffer value new = relInfo.writeToBuffer value old

namespace RelocationRecord

variable (kinds : RelocationKinds) (r : RelocationRecord)

/-- The bytes of the output that the relocation is written into. -/
def field (output : List UInt8) : List UInt8 := window output r.outputOffset.toNat r.size.toNat

/-- A value, written into the field. -/
def writeValue (value : UInt64) (field : List UInt8) : Except String (List UInt8) :=
  match kinds r.kind with
  | some relInfo => relInfo.writeToBuffer value field
  | none => .ok (leBytes value.toNat r.size.toNat)

/-- The field is in the output and holds the written value. -/
def Describes (output : List UInt8) : Prop := ∀ value, r.writtenValue = some value →
  r.outputOffset.toNat + r.size.toNat ≤ output.length ∧
    r.writeValue kinds value (r.field output) = .ok (r.field output)

/-- Values of the kind can be written one over the other. -/
def Rewritable : Prop := ∀ relInfo, kinds r.kind = some relInfo → relInfo.Replaces

variable {kinds} {r}

theorem Rewritable.writeValue (h : r.Rewritable kinds) {value earlier : UInt64}
    {old new : List UInt8} (hnew : r.writeValue kinds earlier old = .ok new) :
    r.writeValue kinds value new = r.writeValue kinds value old := by
  unfold RelocationRecord.writeValue at hnew ⊢
  cases hkind : kinds r.kind with
  | none => rfl
  | some relInfo =>
    rw [hkind] at hnew
    exact h relInfo hkind _ _ _ _ hnew

variable (r)

/-- The output positions of the field. -/
def Owns (i : Nat) : Prop := r.outputOffset.toNat ≤ i ∧ i < r.outputOffset.toNat + r.size.toNat

theorem field_congr {r : RelocationRecord} {output other : List UInt8}
    (h : ∀ i, r.Owns i → other[i]? = output[i]?) : r.field other = r.field output :=
  window_congr fun i hstart hend => h i ⟨hstart, hend⟩

/-! ## What a record is computed from -/

/-- The offset of the target in its section, if there is one. -/
def targetOffset : Int := match r.target with
  | none => 0
  | some target => target.sectionOffset.toNat

/-- The part of the written value that comes from neither the offset of the
target nor, unless a dynamic relocation carries it, the addend. -/
def base (dynamic : Prop) [Decidable dynamic] : Option Int := r.writtenValue.map fun value =>
  value.toNat - r.targetOffset - if dynamic then 0 else r.addend.toInt

theorem base_congr {r : RelocationRecord} {dynamic dynamic' : Prop} [Decidable dynamic]
    [Decidable dynamic'] (h : dynamic ↔ dynamic') : r.base dynamic = r.base dynamic' := by
  simp only [h]

/-- The record but for what patches move. -/
structure SamePlace (r' : RelocationRecord) : Prop where
  eq : r' = { r with
    writtenValue := r'.writtenValue
    targetValue := r'.targetValue
    target := r'.target
    addend := r'.addend }
  target : r'.target = r.target ∨
    ∃ t offset, r.target = some t ∧ r'.target = some { t with sectionOffset := offset }

theorem SamePlace.refl : r.SamePlace r := ⟨rfl, .inl rfl⟩

theorem SamePlace.trans {r r' r'' : RelocationRecord} (h : r.SamePlace r') (h' : r'.SamePlace r'') :
    r.SamePlace r'' := by
  refine ⟨h'.eq.trans (by rw [h.eq]), ?_⟩
  rcases h'.target with hsame | ⟨t, offset, ht, ht'⟩
  · rw [hsame]
    exact h.target
  · rcases h.target with hsame | ⟨u, offset', hu, hu'⟩
    · exact .inr ⟨t, offset, hsame ▸ ht, ht'⟩
    · cases hu'.symm.trans ht
      exact .inr ⟨u, offset, hu, ht'⟩

/-! ## What the versions of the inputs say -/

/-- Where a version of an input file has the target, if it lies there. -/
def positionIn (path : Text) (version : InputVersion) : Option SymbolPosition :=
  match r.targetIn path with
  | none => none
  | some (target, name) => match version.position target name with
    | .ok position => position
    | .error _ => none

/-- Where the record has it. -/
def recordedPosition : Option SymbolPosition := r.target.map fun t => ⟨t.sectionIndex, t.sectionOffset⟩

/-- The entry of the relocation in a version of an input file, if it owns the record. -/
def entryFor (path : Text) (version : InputVersion) : Option RelaPatchEntry :=
  if r.inputFile = path then match version r.input with
    | .ok (some bytes) => r.entryIn bytes
    | _ => none
  else none

/-- A version that has the target has it where the record does. -/
def TargetPlaced (path : Text) (version : InputVersion) : Prop :=
  ∀ position, r.positionIn path version = some position → r.recordedPosition = some position

/-- A version that has the entry has the recorded addend, for a field that
patches can move by an addend. -/
def AddendPlaced (path : Text) (version : InputVersion) : Prop :=
  r.size = 8 → ∀ entry, r.entryFor path version = some entry → entry.addend = r.addend

/-- The record agrees with the versions of its inputs. -/
def Agrees (inputs : Text → InputVersion) : Prop :=
  ∀ path, r.TargetPlaced path (inputs path) ∧ r.AddendPlaced path (inputs path)

end RelocationRecord

/-! ## One record through one pass -/

theorem addSignedDeltaU64_eq_some {value moved : UInt64} {delta : Int} :
    addSignedDeltaU64 value delta = some moved ↔ (moved.toNat : Int) = value.toNat + delta := by
  unfold addSignedDeltaU64
  dsimp only
  have hmoved := moved.toNat_lt
  constructor
  · intro h
    split at h
    · next hrange =>
      cases h
      have hsize : (value.toNat + delta).toNat < UInt64.size := by
        rw [UInt64.size]
        omega
      rw [UInt64.toNat_ofNat_of_lt' hsize]
      omega
    · cases h
  · intro h
    rw [if_pos (by omega), ← h]
    exact congrArg some (UInt64.toNat_inj.mp (by simp))

/-- What a pass does to one record and to the output. -/
structure PassStep (kinds : RelocationKinds) (dynamic : Prop) [Decidable dynamic]
    (r : RelocationRecord) (q : PassedRecord) : Prop where
  place : r.SamePlace q.record
  base : q.record.base dynamic = r.base dynamic
  patch : ∀ patch, q.outputPatch = some patch →
    patch.outputOffset = r.outputOffset ∧ patch.size = r.size ∧ r.writtenValue.isSome ∧
      ∀ old new, old.length = r.size.toNat → patch.writtenBytes old = .ok new →
        0 < r.size.toNat ∧ ∀ value, q.record.writtenValue = some value →
          r.writeValue kinds value old = .ok new
  still : q.outputPatch = none → q.record.writtenValue = r.writtenValue

theorem PassStep.unchanged {kinds : RelocationKinds} {dynamic : Prop} [Decidable dynamic]
    (r : RelocationRecord) : PassStep kinds dynamic r (.unchanged r) :=
  ⟨.refl r, rfl, fun _ h => (by cases h), fun _ => rfl⟩

theorem writtenBytes_of_plain {offset size : UInt64} {data old new : List UInt8}
    (hdata : data.length = old.length)
    (h : SectionPatch.writtenBytes ⟨offset, size, data, none, [], []⟩ old = .ok new) :
    new = data := by
  obtain ⟨_, completed, hcompleted, rfl⟩ := SectionPatch.writtenBytes_eq_ok.mp h
  obtain rfl : data = completed := ok.inj hcompleted
  rw [hdata, Nat.sub_self, List.replicate_zero, List.append_nil]

theorem writtenBytes_of_deferred {offset size : UInt64} {data old new : List UInt8}
    {deferred : DeferredRelocationPatch} (hdata : data.length = old.length)
    (h : SectionPatch.writtenBytes ⟨offset, size, data, some deferred, [], []⟩ old = .ok new) :
    0 < data.length ∧ deferred.relInfo.writeToBuffer deferred.writtenValue old = .ok new := by
  obtain ⟨_, completed, hcompleted, rfl⟩ := SectionPatch.writtenBytes_eq_ok.mp h
  have hlen := SectionPatch.length_of_completedData hcompleted
  obtain ⟨materialized, hmaterialized, hrest⟩ := bind_eq_ok.mp hcompleted
  obtain ⟨_, hpos, _, hwrite⟩ := materializeDeferredRelocationPatch_eq_ok hmaterialized
  obtain rfl : materialized = completed := ok.inj hrest
  refine ⟨hpos, ?_⟩
  rw [hlen, hdata, Nat.sub_self, List.replicate_zero, List.append_nil]
  exact hwrite

theorem relocationFieldBytes_eq_ok {path : Text} {size writtenValue : UInt64} {data : List UInt8}
    (h : relocationFieldBytes path size writtenValue = .ok data) :
    0 < size.toNat ∧ data = leBytes writtenValue.toNat size.toNat := by
  unfold relocationFieldBytes at h
  split at h
  · next hsize =>
    subst hsize
    split at h
    · exact ⟨by decide, (ok.inj h).symm⟩
    · cases h
  · split at h
    · next hsize =>
      subst hsize
      exact ⟨by decide, (ok.inj h).symm⟩
    · cases h

section

variable {kinds : RelocationKinds} {path : Text} {version : InputVersion} {r : RelocationRecord}
  {q : PassedRecord}

theorem moveTarget_eq_ok {target : RelocationTargetRecord} {name : Text}
    {current : SymbolPosition} (h : moveTarget kinds path r target name current = .ok q) :
    ∃ previous written targetValue data, r.writtenValue = some previous ∧
      (written.toNat : Int) = previous.toNat +
        (current.sectionOffset.toNat - target.sectionOffset.toNat) ∧
      targetPatchData path r.size written
        (deferredInstructionRelocationPatch kinds r.kind previous written) = .ok data ∧
      q = { record := { r with
              writtenValue := some written
              targetValue := targetValue
              target := some { target with sectionOffset := current.sectionOffset } }
            outputPatch := some ⟨r.outputOffset, r.size, data,
              deferredInstructionRelocationPatch kinds r.kind previous written, [], []⟩
            outputSymbol := some ⟨name, r.targetValue, targetValue⟩ } := by
  unfold moveTarget at h
  obtain ⟨previous, hprev, h⟩ := bind_eq_ok.mp h
  obtain ⟨written, hwritten, h⟩ := bind_eq_ok.mp h
  obtain ⟨data, hdata, h⟩ := bind_eq_ok.mp h
  obtain ⟨targetValue, _, h⟩ := bind_eq_ok.mp h
  exact ⟨previous, written, targetValue, data, orError_eq_ok.mp hprev,
    addSignedDeltaU64_eq_some.mp (orError_eq_ok.mp hwritten), hdata, (ok.inj h).symm⟩

theorem writtenBytes_of_target {previous written : UInt64} {data old new : List UInt8}
    (hdata : targetPatchData path r.size written
      (deferredInstructionRelocationPatch kinds r.kind previous written) = .ok data)
    (hold : old.length = r.size.toNat)
    (hnew : SectionPatch.writtenBytes ⟨r.outputOffset, r.size, data,
      deferredInstructionRelocationPatch kinds r.kind previous written, [], []⟩ old = .ok new) :
    0 < r.size.toNat ∧ r.writeValue kinds written old = .ok new := by
  rw [RelocationRecord.writeValue]
  rw [deferredInstructionRelocationPatch] at hdata hnew
  cases hkind : kinds r.kind with
  | none =>
    rw [hkind] at hdata hnew
    obtain ⟨hpos, rfl⟩ := relocationFieldBytes_eq_ok hdata
    have hlen : (leBytes written.toNat r.size.toNat).length = old.length := by
      rw [length_leBytes, hold]
    exact ⟨hpos, congrArg ok (writtenBytes_of_plain hlen hnew).symm⟩
  | some relInfo =>
    rw [hkind] at hdata hnew
    cases hdata
    have hlen : (List.replicate r.size.toNat (0 : UInt8)).length = old.length := by
      rw [List.length_replicate, hold]
    obtain ⟨hpos, hwrite⟩ := writtenBytes_of_deferred hlen hnew
    rw [List.length_replicate] at hpos
    exact ⟨hpos, hwrite⟩

theorem targetIn_eq_some {target : RelocationTargetRecord} {name : Text}
    (h : r.targetIn path = some (target, name)) :
    r.target = some target ∧ r.targetName = some name ∧ target.inputFile = path := by
  unfold RelocationRecord.targetIn at h
  split at h
  · next htarget hname =>
    split at h
    · next hfile =>
      cases h
      exact ⟨htarget, hname, hfile⟩
    · cases h
  · cases h

theorem positionIn_of_targetIn {target : RelocationTargetRecord} {name : Text}
    {position : Option SymbolPosition} (htarget : r.targetIn path = some (target, name))
    (hposition : version.position target name = .ok position) :
    r.positionIn path version = position := by
  rw [RelocationRecord.positionIn, htarget]
  dsimp only
  rw [hposition]

/-- What the target pass does to a record. -/
structure TargetPass (kinds : RelocationKinds) (path : Text) (version : InputVersion)
    (r : RelocationRecord) (q : PassedRecord) : Prop where
  step : ∀ (dynamic : Prop) [Decidable dynamic], PassStep kinds dynamic r q
  addend : q.record.addend = r.addend
  target : q.record.target = r.target ∨
    (r.positionIn path version).isSome ∧ ∃ t, r.target = some t ∧ t.inputFile = path
  placed : q.record.TargetPlaced path version
  kept : r.TargetPlaced path version → q = .unchanged r

theorem TargetPass.unchanged (h : r.TargetPlaced path version) :
    TargetPass kinds path version r (.unchanged r) :=
  ⟨fun _ _ => .unchanged r, rfl, .inl rfl, h, fun _ => rfl⟩

theorem TargetPass.moved {target : RelocationTargetRecord} {name : Text}
    {current : SymbolPosition} (htarget : r.targetIn path = some (target, name))
    (hposition : version.position target name = .ok (some current))
    (hsec : current.sectionIndex = target.sectionIndex)
    (hoff : current.sectionOffset ≠ target.sectionOffset)
    (h : moveTarget kinds path r target name current = .ok q) :
    TargetPass kinds path version r q := by
  obtain ⟨previous, written, targetValue, data, hprev, hwritten, hdata, rfl⟩ := moveTarget_eq_ok h
  obtain ⟨hrecorded, hname, hfile⟩ := targetIn_eq_some htarget
  have hfound := positionIn_of_targetIn htarget hposition
  have htarget' : RelocationRecord.targetIn { r with
      writtenValue := some written
      targetValue := targetValue
      target := some { target with sectionOffset := current.sectionOffset } } path =
        some ({ target with sectionOffset := current.sectionOffset }, name) := by
    rw [RelocationRecord.targetIn]
    rw [hname]
    exact if_pos hfile
  refine ⟨fun dynamic _ => ⟨⟨rfl, ?_⟩, ?_, ?_, nofun⟩, rfl, .inr ⟨?_, ?_⟩,
    ?_, ?_⟩
  · exact .inr ⟨target, current.sectionOffset, hrecorded, rfl⟩
  · -- the written value moves with the offset
    rw [RelocationRecord.base, RelocationRecord.base, hprev]
    refine congrArg some ?_
    rw [RelocationRecord.targetOffset, RelocationRecord.targetOffset, hrecorded]
    dsimp only
    omega
  · intro patch hpatch
    cases hpatch
    refine ⟨rfl, rfl, by rw [hprev]; rfl, fun old new hold hnew => ?_⟩
    obtain ⟨hpos, hwrite⟩ := writtenBytes_of_target hdata hold hnew
    refine ⟨hpos, fun value hvalue => ?_⟩
    cases hvalue
    exact hwrite
  · rw [hfound]
    rfl
  · exact ⟨target, hrecorded, hfile⟩
  · intro position hfound'
    rw [positionIn_of_targetIn htarget' hposition] at hfound'
    cases hfound'
    exact congrArg some (congrArg (SymbolPosition.mk · current.sectionOffset) hsec.symm)
  · intro hplaced
    have hsame := hplaced current hfound
    rw [RelocationRecord.recordedPosition, hrecorded] at hsame
    exact absurd (congrArg SymbolPosition.sectionOffset (Option.some.inj hsame)).symm hoff

theorem relocationTargetPatch_eq_ok (h : relocationTargetPatch kinds path version r = .ok q) :
    TargetPass kinds path version r q := by
  unfold relocationTargetPatch at h
  split at h
  · next hnone =>
    cases h
    refine .unchanged fun position hposition => ?_
    rw [RelocationRecord.positionIn, hnone] at hposition
    cases hposition
  · next target name htarget =>
    obtain ⟨found, hfound, h⟩ := bind_eq_ok.mp h
    have hposition := positionIn_of_targetIn htarget hfound
    split at h
    · cases h
      refine .unchanged fun position hsome => ?_
      rw [hposition] at hsome
      cases hsome
    · next current =>
      split at h
      · next hsame =>
        cases h
        refine .unchanged fun position hsome => ?_
        rw [hposition] at hsome
        cases hsome
        rw [RelocationRecord.recordedPosition, (targetIn_eq_some htarget).1, Option.map_some,
          ← hsame.1, ← hsame.2]
      · next hmoved =>
        split at h
        · cases h
        · next hsec =>
          have hsec := not_not.mp hsec
          exact .moved htarget hfound hsec (fun hoff => hmoved ⟨hsec, hoff⟩) h

/-! ### Addends -/

theorem moveAddend_eq_ok {entry : RelaPatchEntry} (h : moveAddend path r entry = .ok q) :
    ∃ previous written, r.writtenValue = some previous ∧ r.size = 8 ∧
      (written.toNat : Int) = previous.toNat + (entry.addend.toInt - r.addend.toInt) ∧
      q = { record := { r with writtenValue := some written, addend := entry.addend }
            outputPatch := some ⟨r.outputOffset, r.size, leBytes written.toNat 8, none, [], []⟩
            outputSymbol := none } := by
  unfold moveAddend at h
  obtain ⟨previous, hprev, h⟩ := bind_eq_ok.mp h
  by_cases hsize : r.size ≠ 8
  · rw [if_pos hsize] at h
    cases h
  rw [if_neg hsize] at h
  obtain ⟨written, hwritten, h⟩ := bind_eq_ok.mp h
  exact ⟨previous, written, orError_eq_ok.mp hprev, not_not.mp hsize,
    addSignedDeltaU64_eq_some.mp (orError_eq_ok.mp hwritten), (ok.inj h).symm⟩

/-- The version has the addend that the record has, or the one that the version
before it had. -/
def RelocationRecord.AddendKept (r : RelocationRecord) (path : Text) (version : InputVersion)
    (previousVersion : Option InputVersion) : Prop :=
  ∀ entry, r.entryFor path version = some entry → entry.addend = r.addend ∨
    ∃ previous ∈ previousVersion, ∃ previousEntry,
      r.entryFor path previous = some previousEntry ∧ previousEntry.addend = entry.addend

/-- What the addend pass does to a record. -/
structure AddendPass (kinds : RelocationKinds) (path : Text) (version : InputVersion)
    (previousVersion : Option InputVersion) (dynamic : Prop) [Decidable dynamic]
    (r : RelocationRecord) (q : PassedRecord) : Prop where
  step : PassStep kinds dynamic r q
  target : q.record.target = r.target
  addend : q.record.addend = r.addend ∨ (r.entryFor path version).isSome ∧ (r.size = 8 ∨ dynamic)
  placed : q.record.AddendKept path version previousVersion
  carried : dynamic → q.outputPatch = none
  kept : r.AddendKept path version previousVersion → q = .unchanged r

variable {previousVersion : Option InputVersion} {dynamic : Prop} [Decidable dynamic]

theorem AddendPass.unchanged (h : r.AddendKept path version previousVersion) :
    AddendPass kinds path version previousVersion dynamic r (.unchanged r) :=
  ⟨.unchanged r, rfl, .inl rfl, h, fun _ => rfl, fun _ => rfl⟩

theorem entryFor_of_input (hfile : r.inputFile = path) {bytes : Option PatchInputBytes}
    (h : version r.input = .ok bytes) : r.entryFor path version = bytes.bind r.entryIn := by
  rw [RelocationRecord.entryFor, if_pos hfile, h]
  cases bytes with
  | none => rfl
  | some bytes => rfl

theorem rawAddendUnchanged_iff (hfile : r.inputFile = path) {previousBytes : Option PatchInputBytes}
    (hprev : previousInputBytes previousVersion r.input = .ok previousBytes)
    {entry : RelaPatchEntry} : rawAddendUnchanged previousBytes r entry = true ↔
      ∃ previous ∈ previousVersion, ∃ previousEntry,
        r.entryFor path previous = some previousEntry ∧ previousEntry.addend = entry.addend := by
  rw [rawAddendUnchanged, Option.any_eq_true]
  cases previousVersion with
  | none =>
    cases hprev
    constructor
    · rintro ⟨_, hnone, _⟩
      cases hnone
    · rintro ⟨_, hnone, _⟩
      cases hnone
  | some previous =>
    have hentry := entryFor_of_input hfile hprev
    constructor
    · rintro ⟨previousEntry, hfound, haddend⟩
      exact ⟨previous, rfl, previousEntry, hentry.trans hfound, of_decide_eq_true haddend⟩
    · rintro ⟨_, hsome, previousEntry, hfound, haddend⟩
      cases hsome
      exact ⟨previousEntry, hentry.symm.trans hfound, decide_eq_true haddend⟩

theorem AddendPass.moved {entry : RelaPatchEntry} {moved : PassedRecord}
    (hentry : r.entryFor path version = some entry) (hchanged : entry.addend ≠ r.addend)
    (hraw : ¬ ∃ previous ∈ previousVersion, ∃ previousEntry,
      r.entryFor path previous = some previousEntry ∧ previousEntry.addend = entry.addend)
    (hplain : ¬ dynamic → kinds r.kind = none)
    (h : if dynamic then moved = .unchanged { r with addend := entry.addend }
      else moveAddend path r entry = .ok moved) :
    AddendPass kinds path version previousVersion dynamic r moved := by
  have hkept : r.AddendKept path version previousVersion → moved = .unchanged r := by
    intro hkept
    rcases hkept entry hentry with haddend | hprev
    · exact absurd haddend hchanged
    · exact absurd hprev hraw
  have hfound : (r.entryFor path version).isSome := by
    rw [hentry]
    rfl
  by_cases hdyn : dynamic
  · rw [if_pos hdyn] at h
    subst h
    refine ⟨⟨⟨rfl, .inl rfl⟩, ?_, fun _ h => (by cases h), fun _ => rfl⟩, rfl, .inr ⟨hfound, .inr hdyn⟩,
      ?_, fun _ => rfl, hkept⟩
    · rw [RelocationRecord.base, RelocationRecord.base]
      simp only [if_pos hdyn]
      rfl
    · intro entry' hentry'
      have hsame : some entry = some entry' := hentry.symm.trans hentry'
      exact .inl (congrArg RelaPatchEntry.addend (Option.some.inj hsame)).symm
  · rw [if_neg hdyn] at h
    obtain ⟨previous, written, hprev, hsize, hwritten, rfl⟩ := moveAddend_eq_ok h
    refine ⟨⟨⟨rfl, ?_⟩, ?_, ?_, nofun⟩, rfl, .inr ⟨hfound, .inl hsize⟩, ?_,
      fun hcarried => absurd hcarried hdyn, hkept⟩
    · exact .inl rfl
    · rw [RelocationRecord.base, RelocationRecord.base, hprev]
      refine congrArg some ?_
      simp only [if_neg hdyn, RelocationRecord.targetOffset]
      omega
    · intro patch hpatch
      cases hpatch
      refine ⟨rfl, rfl, by rw [hprev]; rfl, fun old new hold hnew => ?_⟩
      have hwidth : r.size.toNat = 8 := by rw [hsize]; rfl
      have hlen : (leBytes written.toNat 8).length = old.length := by
        rw [length_leBytes, hold, hwidth]
      refine ⟨by omega, fun value hvalue => ?_⟩
      cases hvalue
      rw [RelocationRecord.writeValue, hplain hdyn, hwidth, writtenBytes_of_plain hlen hnew]
    · intro entry' hentry'
      have hsame : some entry = some entry' := hentry.symm.trans hentry'
      exact .inl (congrArg RelaPatchEntry.addend (Option.some.inj hsame)).symm

theorem relocationAddendPatch_eq_ok {dynamicRelocations : List DynamicRelocationRecord}
    (h : relocationAddendPatch path version previousVersion dynamicRelocations r = .ok q)
    (hplain : ¬ r.AddendKept path version previousVersion →
      ¬ r.IsDynamic dynamicRelocations → kinds r.kind = none) :
    AddendPass kinds path version previousVersion (r.IsDynamic dynamicRelocations) r q := by
  unfold relocationAddendPatch at h
  split at h
  · next hother =>
    cases h
    refine .unchanged fun entry hentry => ?_
    rw [RelocationRecord.entryFor, if_neg hother] at hentry
    cases hentry
  · next hfile =>
    have hfile := not_not.mp hfile
    obtain ⟨found, hfound, h⟩ := bind_eq_ok.mp h
    have hlookup := entryFor_of_input hfile hfound
    split at h
    · cases h
      refine .unchanged fun entry hentry => ?_
      rw [hlookup] at hentry
      cases hentry
    · next bytes =>
      obtain ⟨previousBytes, hprev, h⟩ := bind_eq_ok.mp h
      have hlookup : r.entryFor path version = r.entryIn bytes := hlookup
      split at h
      · next hnone =>
        cases h
        refine .unchanged fun entry hentry => ?_
        rw [hlookup, hnone] at hentry
        cases hentry
      · next entry hentry =>
        rw [hentry] at hlookup
        split at h
        · next hsame =>
          cases h
          refine .unchanged fun entry' hentry' => ?_
          rw [hlookup] at hentry'
          cases hentry'
          exact .inl hsame
        · next hchanged =>
          split at h
          · next hraw =>
            cases h
            refine .unchanged fun entry' hentry' => ?_
            rw [hlookup] at hentry'
            cases hentry'
            exact .inr ((rawAddendUnchanged_iff hfile hprev).mp hraw)
          · next hraw =>
            have hraw := (rawAddendUnchanged_iff hfile hprev).not.mp hraw
            refine .moved hlookup hchanged hraw (hplain fun hkept => ?_) ?_
            · exact (hkept entry hlookup).elim hchanged hraw
            · split at h
              · next hdyn =>
                rw [if_pos hdyn]
                exact (ok.inj h).symm
              · next hdyn =>
                rw [if_neg hdyn]
                exact h

end

/-! ## One record through a whole patch -/

namespace RelocationRecord.SamePlace

variable {r r' : RelocationRecord} (h : r.SamePlace r')

include h

theorem outputOffset : r'.outputOffset = r.outputOffset := by rw [h.eq]
theorem size : r'.size = r.size := by rw [h.eq]
theorem kind : r'.kind = r.kind := by rw [h.eq]

theorem field (output : List UInt8) : r'.field output = r.field output := by
  rw [RelocationRecord.field, RelocationRecord.field, h.outputOffset, h.size]

theorem writeValue (kinds : RelocationKinds) : r'.writeValue kinds = r.writeValue kinds := by
  funext value field
  rw [RelocationRecord.writeValue, RelocationRecord.writeValue, h.kind, h.size]

theorem rewritable {kinds : RelocationKinds} : r'.Rewritable kinds ↔ r.Rewritable kinds := by
  rw [Rewritable, Rewritable, h.kind]

theorem standsFor {d : DynamicRelocationRecord} : d.StandsFor r' ↔ d.StandsFor r := by
  rw [h.eq]
  exact Iff.rfl

theorem isDynamic {ds : List DynamicRelocationRecord} : r'.IsDynamic ds ↔ r.IsDynamic ds := by
  exact exists_congr fun d => and_congr_right fun _ => h.standsFor

theorem entryFor (path : Text) (version : InputVersion) :
    r'.entryFor path version = r.entryFor path version := by
  rw [h.eq]
  rfl

theorem positionIn (path : Text) (version : InputVersion) :
    r'.positionIn path version = r.positionIn path version := by
  have hname : r'.targetName = r.targetName := by rw [h.eq]
  rw [RelocationRecord.positionIn, RelocationRecord.positionIn, targetIn, targetIn, hname]
  rcases h.target with hsame | ⟨t, offset, ht, ht'⟩
  · rw [hsame]
  · rw [ht, ht']
    cases r.targetName with
    | none => rfl
    | some name =>
      dsimp only
      by_cases hfile : t.inputFile = path
      · rw [if_pos hfile, if_pos hfile]
        rfl
      · rw [if_neg hfile, if_neg hfile]

end RelocationRecord.SamePlace

/-- What some passes do to one record, and the patches they leave. -/
structure RecordChain (kinds : RelocationKinds) (dynamic : Prop) [Decidable dynamic]
    (r r' : RelocationRecord) (patches : List SectionPatch) : Prop where
  place : r.SamePlace r'
  base : r'.base dynamic = r.base dynamic
  field : ∀ patch ∈ patches,
    patch.outputOffset = r.outputOffset ∧ patch.size = r.size ∧ r.writtenValue.isSome
  nonempty : ∀ patch ∈ patches, ∀ old new, old.length = r.size.toNat →
    patch.writtenBytes old = .ok new → 0 < r.size.toNat
  still : patches = [] → r'.writtenValue = r.writtenValue
  single : ∀ patch, patches = [patch] → ∀ old new, old.length = r.size.toNat →
    patch.writtenBytes old = .ok new → ∀ value, r'.writtenValue = some value →
      r.writeValue kinds value old = .ok new

namespace RecordChain

variable {kinds : RelocationKinds} {dynamic : Prop} [Decidable dynamic]
  {r r' r'' : RelocationRecord} {ps ps' qs : List SectionPatch}

theorem congr {dynamic' : Prop} [Decidable dynamic'] (h : RecordChain kinds dynamic r r' ps)
    (hiff : dynamic ↔ dynamic') : RecordChain kinds dynamic' r r' ps := by
  refine ⟨h.place, ?_, h.field, h.nonempty, h.still, h.single⟩
  rw [← RelocationRecord.base_congr hiff, ← RelocationRecord.base_congr hiff]
  exact h.base

theorem refl (r : RelocationRecord) : RecordChain kinds dynamic r r [] where
  place := .refl r
  base := rfl
  field _ h := absurd h List.not_mem_nil
  nonempty _ h := absurd h List.not_mem_nil
  still _ := rfl
  single _ h := by cases h

theorem ofStep {q : PassedRecord} (h : PassStep kinds dynamic r q) :
    RecordChain kinds dynamic r q.record q.outputPatch.toList where
  place := h.place
  base := h.base
  field patch hpatch := by
    obtain ⟨hoff, hsize, hwritten, _⟩ := h.patch patch (Option.mem_toList.mp hpatch)
    exact ⟨hoff, hsize, hwritten⟩
  nonempty patch hpatch old new hold hnew := by
    obtain ⟨_, _, _, hspec⟩ := h.patch patch (Option.mem_toList.mp hpatch)
    exact (hspec old new hold hnew).1
  still hnone := h.still (Option.toList_eq_nil_iff.mp hnone)
  single patch hpatch old new hold hnew := by
    have hmem : patch ∈ q.outputPatch.toList := by
      rw [hpatch]
      exact List.mem_singleton_self patch
    obtain ⟨_, _, _, hspec⟩ := h.patch patch (Option.mem_toList.mp hmem)
    exact (hspec old new hold hnew).2

theorem trans (h : RecordChain kinds dynamic r r' ps) (h' : RecordChain kinds dynamic r' r'' ps')
    (hqs : qs.Perm (ps ++ ps')) : RecordChain kinds dynamic r r'' qs := by
  have hwritten : r'.writtenValue.isSome → r.writtenValue.isSome := by
    intro hsome
    cases ps with
    | nil =>
      rw [← h.still rfl]
      exact hsome
    | cons p ps => exact (h.field p List.mem_cons_self).2.2
  refine ⟨h.place.trans h'.place, h'.base.trans h.base, ?_, ?_, ?_, ?_⟩
  · intro patch hpatch
    rcases List.mem_append.mp (hqs.mem_iff.mp hpatch) with hp | hp
    · exact h.field patch hp
    · obtain ⟨hoff, hsize, hsome⟩ := h'.field patch hp
      exact ⟨hoff.trans h.place.outputOffset, hsize.trans h.place.size, hwritten hsome⟩
  · intro patch hpatch old new hold hnew
    rcases List.mem_append.mp (hqs.mem_iff.mp hpatch) with hp | hp
    · exact h.nonempty patch hp old new hold hnew
    · rw [← h.place.size] at hold ⊢
      exact h'.nonempty patch hp old new hold hnew
  · rintro rfl
    obtain ⟨rfl, rfl⟩ := List.append_eq_nil_iff.mp hqs.nil_eq.symm
    exact (h'.still rfl).trans (h.still rfl)
  · rintro patch rfl old new hold hnew value hvalue
    rcases List.append_eq_singleton_iff.mp (List.singleton_perm.mp hqs).symm with
      ⟨rfl, rfl⟩ | ⟨rfl, rfl⟩
    · rw [← h.place.writeValue]
      rw [← h.place.size] at hold
      exact h'.single patch rfl old new hold hnew value hvalue
    · rw [h'.still rfl] at hvalue
      exact h.single patch rfl old new hold hnew value hvalue

end RecordChain

end Sld.Incremental
