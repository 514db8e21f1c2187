/-
# `Incremental.RelocationRuns` — what runs of patches leave in the records

A patch that edits relocation records in memory and writes them keeps the
records on disk in step with the output, and a record that sees the same
versions of its inputs again has the same value again, and its field the
same bytes (`RecordStep`).

The patches of which this is true are the `Safe` ones.  The one condition
that the code does not look after is the first: a patch that edits a
relocation record must also write the records.  Without it a later patch
starts from the old addend, finds that the object has it again, and leaves
the value of the patch before in the output (`addend_is_not_restored`).
-/
import Sld.Incremental.RelocationPasses

namespace Sld.Incremental

open Text.Reader (bind_eq_ok mem_of_mapM)
open Store (Patch)
open List (any_cons any_nil forall_mem_cons mem_append mem_append_left mem_cons mem_cons_self
  mem_filter mem_map mem_map_of_mem mem_singleton not_mem_nil)
open RelocationRecord (recordedPosition)

/-! ## One record and the changed inputs -/

/-- What a patch needs of a changed input for a record: the input has the
target and the entry of the record as long as it had them, an instruction is
rewritten only if its kind allows it, and the relocation keeps or lacks its
dynamic relocation. -/
structure ChangedInput.Follows (kinds : RelocationKinds) (inputs : Text → InputVersion)
    (dynamicRelocations : List DynamicRelocationRecord) (c : ChangedInput)
    (r : RelocationRecord) : Prop where
  hasTarget : (r.positionIn c.path c.bytes).isSome = (r.positionIn c.path (inputs c.path)).isSome
  hasEntry : (r.entryFor c.path c.bytes).isSome = (r.entryFor c.path (inputs c.path)).isSome
  rewritable : ¬ r.TargetPlaced c.path c.bytes → r.Rewritable kinds
  plain : ¬ r.AddendKept c.path c.bytes (c.previousSnapshot inputs) →
    ¬ r.IsDynamic dynamicRelocations → kinds r.kind = none
  dynamic : ∀ d, d ∈ c.addedDynamicRelocations ∨
    d ∈ c.removedDynamicRelocations ∧ d.hasRestorableRelaOutputInfo = false → ¬ d.StandsFor r

/-- A record goes through the passes of the changed inputs. -/
inductive Passed (kinds : RelocationKinds) (inputs : Text → InputVersion) :
    List ChangedInput → List DynamicRelocationRecord → RelocationRecord → RelocationRecord →
      List SectionPatch → Prop
  | nil (ds : List DynamicRelocationRecord) (r : RelocationRecord) : Passed kinds inputs [] ds r r []
  | cons {c : ChangedInput} {cs : List ChangedInput} {ds : List DynamicRelocationRecord}
      {r r' : RelocationRecord} {target addend : PassedRecord} {ps : List SectionPatch}
      (htarget : relocationTargetPatch kinds c.path c.bytes r = .ok target)
      (haddend : relocationAddendPatch c.path c.bytes (c.previousSnapshot inputs) ds
        target.record = .ok addend)
      (hrest : Passed kinds inputs cs (c.updateDynamicRelocations ds) addend.record r' ps) :
      Passed kinds inputs (c :: cs) ds r r'
        (addend.outputPatch.toList ++ target.outputPatch.toList ++ ps)

section

variable {kinds : RelocationKinds} {inputs : Text → InputVersion} {c : ChangedInput}
  {ds : List DynamicRelocationRecord} {r r' : RelocationRecord}

theorem isDynamic_update (h : ∀ d, d ∈ c.addedDynamicRelocations ∨
      d ∈ c.removedDynamicRelocations ∧ d.hasRestorableRelaOutputInfo = false → ¬ d.StandsFor r) :
    r.IsDynamic (c.updateDynamicRelocations ds) ↔ r.IsDynamic ds := by
  have hadded {d : DynamicRelocationRecord} : d ∈ (if c.addedDynamicRelocations = [] then ds
      else sortDedup (ds ++ c.addedDynamicRelocations)) ↔ d ∈ ds ∨ d ∈ c.addedDynamicRelocations := by
    by_cases hnone : c.addedDynamicRelocations = []
    · rw [hnone]
      exact (or_iff_left not_mem_nil).symm
    · rw [if_neg hnone, mem_sortDedup, mem_append]
  constructor
  · rintro ⟨d, hd, hstands⟩
    rcases hadded.mp (mem_filter.mp hd).1 with hold | hnew
    · exact ⟨d, hold, hstands⟩
    · exact absurd hstands (h d (.inl hnew))
  · rintro ⟨d, hd, hstands⟩
    refine ⟨d, mem_filter.mpr ⟨hadded.mpr (.inl hd), ?_⟩, hstands⟩
    by_cases hremoved : d ∈ c.removedDynamicRelocations
    · have hrestorable : d.hasRestorableRelaOutputInfo ≠ false :=
        fun hnot => h d (.inr ⟨hremoved, hnot⟩) hstands
      simp [Bool.eq_true_of_not_eq_false hrestorable]
    · simp [hremoved]

/-- What the passes of one input do to a record that it follows. -/
structure InputStep (kinds : RelocationKinds) (inputs : Text → InputVersion)
    (ds : List DynamicRelocationRecord) (c : ChangedInput) (r r' : RelocationRecord)
    (ps : List SectionPatch) : Prop where
  chain : RecordChain kinds (r.IsDynamic ds) r r' ps
  target : r'.target = r.target ∨ (r.positionIn c.path (inputs c.path)).isSome ∧
    ∃ t, r.target = some t ∧ t.inputFile = c.path
  addend : r'.addend = r.addend ∨ (r.entryFor c.path (inputs c.path)).isSome ∧
    (r.size = 8 ∨ r.IsDynamic ds)
  rewritable : ps ≠ [] → r.Rewritable kinds
  placed : r'.TargetPlaced c.path c.bytes
  addendKept : r'.AddendKept c.path c.bytes (c.previousSnapshot inputs)
  addend_of_kept : r.AddendKept c.path c.bytes (c.previousSnapshot inputs) → r'.addend = r.addend

variable {path : Text} {version : InputVersion}

theorem positionIn_eq_none {t : RelocationTargetRecord}
    (ht : r.target = some t) (hfile : t.inputFile ≠ path) : r.positionIn path version = none := by
  rw [RelocationRecord.positionIn, RelocationRecord.targetIn, ht]
  cases r.targetName with
  | none => rfl
  | some name =>
    dsimp only
    rw [if_neg hfile]

theorem target_of_positionIn
    (h : (r.positionIn path version).isSome) : ∃ t, r.target = some t ∧ t.inputFile = path := by
  cases ht : r.target with
  | none =>
    rw [RelocationRecord.positionIn, RelocationRecord.targetIn, ht] at h
    cases h
  | some t =>
    refine ⟨t, rfl, by_contra fun hfile => ?_⟩
    rw [positionIn_eq_none ht hfile] at h
    cases h

theorem inputFile_of_entryFor (h : (r.entryFor path version).isSome) : r.inputFile = path := by
  by_contra hfile
  rw [RelocationRecord.entryFor, if_neg hfile] at h
  cases h

theorem entryFor_eq_none {path' : Text} {version' : InputVersion}
    (h : (r.entryFor path version).isSome) (hpath : path' ≠ path) :
    r.entryFor path' version' = none := by
  rw [RelocationRecord.entryFor, if_neg (inputFile_of_entryFor h ▸ hpath.symm)]

theorem eq_of_mem_previousSnapshot {previous : InputVersion}
    (h : previous ∈ c.previousSnapshot inputs) : previous = inputs c.path := by
  unfold ChangedInput.previousSnapshot at h
  split at h
  · exact (Option.some.inj h).symm
  · cases h

theorem addendKept_congr (path : Text) (version : InputVersion) (previous : Option InputVersion)
    (hplace : r.SamePlace r') (haddend : r'.addend = r.addend) :
    r'.AddendKept path version previous ↔ r.AddendKept path version previous := by
  simp only [RelocationRecord.AddendKept, hplace.entryFor, haddend]

theorem InputStep.of_passes (h : c.Follows kinds inputs ds r) {target addend : PassedRecord}
    (htarget : relocationTargetPatch kinds c.path c.bytes r = .ok target)
    (haddend : relocationAddendPatch c.path c.bytes (c.previousSnapshot inputs) ds
      target.record = .ok addend) :
    InputStep kinds inputs ds c r addend.record
      (addend.outputPatch.toList ++ target.outputPatch.toList) := by
  have ht := relocationTargetPatch_eq_ok htarget
  have hplace := (ht.step (r.IsDynamic ds)).place
  have hkept := addendKept_congr c.path c.bytes (c.previousSnapshot inputs) hplace ht.addend
  have ha := relocationAddendPatch_eq_ok haddend fun hmoved hdyn =>
    hplace.kind ▸ h.plain (fun hnot => hmoved (hkept.mpr hnot))
      (fun hnot => hdyn (hplace.isDynamic.mpr hnot))
  have hplace' := ha.step.place
  have hchain := (RecordChain.ofStep (ht.step (r.IsDynamic ds))).trans
    ((RecordChain.ofStep ha.step).congr hplace.isDynamic) List.perm_append_comm
  refine ⟨hchain, ?_, ?_, ?_, ?_, ha.placed, ?_⟩
  · rw [ha.target, ← h.hasTarget]
    exact ht.target
  · rw [← h.hasEntry]
    rcases ha.addend with hsame | ⟨hentry, hreason⟩
    · exact .inl (hsame.trans ht.addend)
    · rw [hplace.entryFor] at hentry
      rw [hplace.size, hplace.isDynamic] at hreason
      exact .inr ⟨hentry, hreason⟩
  · -- a patch comes from a target that has moved or from an addend that has changed
    intro hpatches
    by_contra hnot
    have htplaced : r.TargetPlaced c.path c.bytes :=
      by_contra fun hmoved => hnot (h.rewritable hmoved)
    obtain rfl := ht.kept htplaced
    refine hpatches ?_
    have hnone : addend.outputPatch = none := by
      by_cases hcarried : r.IsDynamic ds
      · exact ha.carried hcarried
      · by_contra hsome
        refine hnot fun relInfo hkind => ?_
        have hplain := h.plain (fun hakept => hsome ?_) hcarried
        · rw [hplain] at hkind
          cases hkind
        · rw [ha.kept hakept]
          rfl
    rw [hnone]
    rfl
  · intro position hposition
    rw [hplace'.positionIn] at hposition
    rw [recordedPosition, ha.target]
    exact ht.placed position hposition
  · intro hakept
    rw [ha.kept (hkept.mpr hakept)]
    exact ht.addend

namespace InputStep

variable {ps : List SectionPatch} (h : InputStep kinds inputs ds c r r' ps) {path : Text}
  (hpath : path ≠ c.path) {version : InputVersion}

include h hpath

theorem target_eq_or : r'.target = r.target ∨ r.positionIn path version = none := by
  rcases h.target with hsame | ⟨_, t, ht, hfile⟩
  · exact .inl hsame
  · exact .inr (positionIn_eq_none ht (hfile ▸ hpath.symm))

theorem addend_eq_or : r'.addend = r.addend ∨ ∀ version, r.entryFor path version = none := by
  rcases h.addend with hsame | ⟨hentry, _⟩
  · exact .inl hsame
  · exact .inr fun _ => entryFor_eq_none hentry hpath

theorem targetPlaced_iff : r'.TargetPlaced path version ↔ r.TargetPlaced path version := by
  rw [RelocationRecord.TargetPlaced, RelocationRecord.TargetPlaced, h.chain.place.positionIn]
  rcases h.target_eq_or hpath with hsame | hnone
  · rw [recordedPosition, recordedPosition, hsame]
  · rw [hnone]
    exact ⟨fun _ _ hno => (by cases hno), fun _ _ hno => (by cases hno)⟩

theorem addendPlaced_iff : r'.AddendPlaced path version ↔ r.AddendPlaced path version := by
  rw [RelocationRecord.AddendPlaced, RelocationRecord.AddendPlaced, h.chain.place.entryFor,
    h.chain.place.size]
  rcases h.addend_eq_or hpath with hsame | hnone
  · rw [hsame]
  · rw [hnone]
    exact ⟨fun _ _ _ hno => (by cases hno), fun _ _ _ hno => (by cases hno)⟩

theorem addendKept_iff {previous : Option InputVersion} :
    r'.AddendKept path version previous ↔ r.AddendKept path version previous := by
  rcases h.addend_eq_or hpath with hsame | hnone
  · exact addendKept_congr _ _ _ h.chain.place hsame
  · rw [RelocationRecord.AddendKept, RelocationRecord.AddendKept, h.chain.place.entryFor, hnone]
    exact ⟨fun _ _ hno => (by cases hno), fun _ _ hno => (by cases hno)⟩

theorem follows {c' : ChangedInput} (hc : c.Follows kinds inputs ds r) (hc' : c'.path = path)
    (hnext : c'.Follows kinds inputs ds r) :
    c'.Follows kinds inputs (c.updateDynamicRelocations ds) r' := by
  obtain rfl := hc'
  have hplace := h.chain.place
  refine ⟨?_, ?_, ?_, ?_, ?_⟩
  · rw [hplace.positionIn, hplace.positionIn]
    exact hnext.hasTarget
  · rw [hplace.entryFor, hplace.entryFor]
    exact hnext.hasEntry
  · rw [h.targetPlaced_iff hpath, hplace.rewritable]
    exact hnext.rewritable
  · rw [h.addendKept_iff hpath, hplace.isDynamic, isDynamic_update hc.dynamic, hplace.kind]
    exact hnext.plain
  · intro d hd hstands
    exact hnext.dynamic d hd (hplace.standsFor.mp hstands)

omit hpath

theorem agrees {current : Text → InputVersion} (hcur : current c.path = inputs c.path)
    (hr : r.Agrees current) : r'.Agrees (Function.update current c.path c.bytes) := by
  intro path
  by_cases hpath : path = c.path
  · subst hpath
    rw [Function.update_self]
    refine ⟨h.placed, fun hsize entry hentry => ?_⟩
    rcases h.addendKept entry hentry with hsame | ⟨previous, hprev, previousEntry, hfound, hraw⟩
    · exact hsame
    · -- the entry is as it was in the version before, with which the record agreed
      rw [h.chain.place.size] at hsize
      rw [h.chain.place.entryFor, eq_of_mem_previousSnapshot hprev, ← hcur] at hfound
      have hsame : entry.addend = r.addend :=
        hraw.symm.trans ((hr c.path).2 hsize previousEntry hfound)
      rw [h.chain.place.entryFor] at hentry
      refine hsame.trans (h.addend_of_kept fun entry' hentry' => ?_).symm
      cases hentry.symm.trans hentry'
      exact .inl hsame
  · rw [Function.update_of_ne hpath]
    exact ⟨(h.targetPlaced_iff hpath).mpr (hr path).1, (h.addendPlaced_iff hpath).mpr (hr path).2⟩

end InputStep

/-- What a whole patch does to a record that its inputs follow. -/
structure PatchStep (kinds : RelocationKinds) (inputs : Text → InputVersion)
    (ds : List DynamicRelocationRecord) (cs : List ChangedInput) (r r' : RelocationRecord)
    (ps : List SectionPatch) : Prop where
  chain : RecordChain kinds (r.IsDynamic ds) r r' ps
  target : r'.target = r.target ∨ ∃ path, (r.positionIn path (inputs path)).isSome
  addend : r'.addend = r.addend ∨
    (∃ path, (r.entryFor path (inputs path)).isSome) ∧ (r.size = 8 ∨ r.IsDynamic ds)
  rewritable : ps ≠ [] → r.Rewritable kinds
  agrees : ∀ current : Text → InputVersion, (∀ c ∈ cs, current c.path = inputs c.path) →
    r.Agrees current → r'.Agrees (recordChanged cs current)

variable {cs : List ChangedInput} {ps : List SectionPatch}

/-- The induction is on the changed inputs; a record that the first input has
moved is still followed by the others, which are other files. -/
theorem Passed.patchStep
    (h : Passed kinds inputs cs ds r r' ps) (hpaths : (cs.map ChangedInput.path).Nodup)
    (hfollows : ∀ c ∈ cs, c.Follows kinds inputs ds r) : PatchStep kinds inputs ds cs r r' ps := by
  induction h with
  | nil ds r =>
    exact ⟨.refl r, .inl rfl, .inl rfl, fun hne => absurd rfl hne, fun _ _ hr => hr⟩
  | @cons c cs ds r r' target addend ps htarget haddend _ ih =>
    obtain ⟨hnotMem, hpaths⟩ := List.nodup_cons.mp hpaths
    obtain ⟨hc, hcs⟩ := forall_mem_cons.mp hfollows
    have hfirst := InputStep.of_passes hc htarget haddend
    have hplace := hfirst.chain.place
    have hother : ∀ c' ∈ cs, c'.path ≠ c.path := fun c' hc' hsame =>
      hnotMem (hsame ▸ mem_map_of_mem hc')
    have hrest := ih hpaths fun c' hc' => hfirst.follows (hother c' hc') hc rfl (hcs c' hc')
    have hdyn : addend.record.IsDynamic (c.updateDynamicRelocations ds) ↔ r.IsDynamic ds :=
      hplace.isDynamic.trans (isDynamic_update hc.dynamic)
    refine ⟨hfirst.chain.trans (hrest.chain.congr hdyn) (List.Perm.refl _), ?_, ?_, ?_, ?_⟩
    · rcases hrest.target with hsame | ⟨path, hfound⟩
      · rw [hsame]
        exact hfirst.target.imp_right fun ⟨hfound, _⟩ => ⟨c.path, hfound⟩
      · rw [hplace.positionIn] at hfound
        exact .inr ⟨path, hfound⟩
    · rcases hrest.addend with hsame | ⟨⟨path, hfound⟩, hreason⟩
      · rw [hsame]
        exact hfirst.addend.imp_right fun ⟨hfound, hreason⟩ => ⟨⟨c.path, hfound⟩, hreason⟩
      · rw [hplace.entryFor] at hfound
        rw [hplace.size, hdyn] at hreason
        exact .inr ⟨⟨path, hfound⟩, hreason⟩
    · intro hne
      by_cases hnone : addend.outputPatch.toList ++ target.outputPatch.toList = []
      · rw [hnone] at hne
        exact hplace.rewritable.mp (hrest.rewritable hne)
      · exact hfirst.rewritable hnone
    · intro current hcur hr
      obtain ⟨hcur, hcurrents⟩ := forall_mem_cons.mp hcur
      refine hrest.agrees _ (fun c' hc' => ?_) (hfirst.agrees hcur hr)
      show Function.update current c.path c.bytes c'.path = inputs c'.path
      rw [Function.update_of_ne (hother c' hc')]
      exact hcurrents c' hc'

theorem Passed.eq_of_kept (h : Passed kinds inputs cs ds r r' ps)
    (hkept : ∀ c ∈ cs, r.TargetPlaced c.path c.bytes ∧
      r.AddendKept c.path c.bytes (c.previousSnapshot inputs)) : r' = r ∧ ps = [] := by
  induction h with
  | nil ds r => exact ⟨rfl, rfl⟩
  | cons htarget haddend _ ih =>
    obtain ⟨⟨htplaced, hakept⟩, hrest⟩ := forall_mem_cons.mp hkept
    obtain rfl := (relocationTargetPatch_eq_ok htarget).kept htplaced
    have ha : AddendPass kinds _ _ _ _ _ _ :=
      relocationAddendPatch_eq_ok haddend fun hmoved => absurd hakept hmoved
    obtain rfl := ha.kept hakept
    obtain ⟨rfl, rfl⟩ := ih hrest
    exact ⟨rfl, rfl⟩

end

variable {inputs : Text → InputVersion} {kinds : RelocationKinds}

theorem Passed.unique {cs : List ChangedInput} {ds : List DynamicRelocationRecord}
    {r r₁ r₂ : RelocationRecord} {ps₁ ps₂ : List SectionPatch}
    (h₁ : Passed kinds inputs cs ds r r₁ ps₁) (h₂ : Passed kinds inputs cs ds r r₂ ps₂) :
    r₁ = r₂ ∧ ps₁ = ps₂ := by
  induction h₁ generalizing r₂ ps₂ with
  | nil ds r =>
    cases h₂
    exact ⟨rfl, rfl⟩
  | cons htarget haddend _ ih =>
    cases h₂ with
    | cons htarget' haddend' hrest' =>
      cases htarget.symm.trans htarget'
      cases haddend.symm.trans haddend'
      obtain ⟨rfl, rfl⟩ := ih hrest'
      exact ⟨rfl, rfl⟩

/-! ## All records through a patch -/

theorem requireComplete_eq_ok {complete edited : Bool} {records : String} :
    requireComplete complete edited records = .ok () ↔ (edited = true → complete = true) := by
  rw [requireComplete]
  by_cases hrefused : (edited && !complete) = true
  · rw [if_pos hrefused]
    rw [Bool.and_eq_true] at hrefused
    constructor
    · intro h
      cases h
    · intro h
      rw [h hrefused.1] at hrefused
      cases hrefused.2
  · rw [if_neg hrefused]
    refine iff_of_true rfl fun hedited => ?_
    rw [hedited, Bool.true_and, Bool.not_eq_true'] at hrefused
    exact Bool.not_eq_false _ |>.mp hrefused

/-- The patches of the other planners. -/
def ChangedInput.otherPatches (c : ChangedInput) : List SectionPatch :=
  c.sectionPatches ++ c.dynamicRelocationPatches ++ c.ehFramePatches

/-- The patches of one turn of the loop over the changed inputs. -/
def ChangedInput.turnPatches (c : ChangedInput) (targets addends : List PassedRecord) :
    List SectionPatch :=
  c.sectionPatches ++ c.dynamicRelocationPatches ++ addends.filterMap PassedRecord.outputPatch ++
    targets.filterMap PassedRecord.outputPatch ++ c.ehFramePatches

/-- What one turn of the loop over the changed inputs does. -/
structure InputTurn (kinds : RelocationKinds) (complete : Bool) (inputs : Text → InputVersion)
    (c : ChangedInput) (s s' : PatchProgress) (targets addends : List PassedRecord) : Prop where
  targetPass : s.relocations.mapM (relocationTargetPatch kinds c.path c.bytes) = .ok targets
  addendPass : (targets.map PassedRecord.record).mapM (relocationAddendPatch c.path c.bytes
    (c.previousSnapshot inputs) s.dynamicRelocations) = .ok addends
  complete : c.editsRecords = true → complete = true
  progress : s' = {
    relocations := addends.map PassedRecord.record
    dynamicRelocations := c.updateDynamicRelocations s.dynamicRelocations
    sectionsFileCleared := s.sectionsFileCleared || c.editsRecords
    patches := s.patches ++ c.turnPatches targets addends
    outputSymbols := s.outputSymbols ++ targets.filterMap PassedRecord.outputSymbol }

theorem patchChangedInput_eq_ok {complete : Bool} {c : ChangedInput} {s s' : PatchProgress}
    (h : patchChangedInput kinds complete inputs s c = .ok s') :
    ∃ targets addends, InputTurn kinds complete inputs c s s' targets addends := by
  obtain ⟨targets, htargets, h⟩ := bind_eq_ok.mp h
  obtain ⟨addends, haddends, h⟩ := bind_eq_ok.mp h
  obtain ⟨_, hsecs, h⟩ := bind_eq_ok.mp h
  obtain ⟨_, hadded, h⟩ := bind_eq_ok.mp h
  obtain ⟨_, hremoved, h⟩ := bind_eq_ok.mp h
  obtain ⟨_, hfdesRemoved, h⟩ := bind_eq_ok.mp h
  obtain ⟨_, hfdesUpdated, h⟩ := bind_eq_ok.mp h
  refine ⟨targets, addends, htargets, haddends, fun hedits => ?_, (Except.ok.inj h).symm⟩
  simp only [ChangedInput.editsRecords, Bool.or_eq_true] at hedits
  rcases hedits with (((hedits | hedits) | hedits) | hedits) | hedits
  · exact requireComplete_eq_ok.mp hsecs hedits
  · exact requireComplete_eq_ok.mp hadded hedits
  · exact requireComplete_eq_ok.mp hremoved hedits
  · exact requireComplete_eq_ok.mp hfdesRemoved hedits
  · exact requireComplete_eq_ok.mp hfdesUpdated hedits

/-- What the loop does: `added` are the patches it leaves. -/
structure LoopPasses (kinds : RelocationKinds) (complete : Bool) (inputs : Text → InputVersion)
    (cs : List ChangedInput) (s s' : PatchProgress) (added : List SectionPatch) : Prop where
  forth : ∀ r ∈ s.relocations, ∃ r' ∈ s'.relocations, ∃ ps,
    Passed kinds inputs cs s.dynamicRelocations r r' ps ∧ ps.Sublist added
  back : ∀ r' ∈ s'.relocations, ∃ r ∈ s.relocations, ∃ ps,
    Passed kinds inputs cs s.dynamicRelocations r r' ps ∧ ps.Sublist added
  patches : s'.patches = s.patches ++ added
  origin : ∀ patch ∈ added, (∃ c ∈ cs, patch ∈ c.otherPatches) ∨ ∃ r ∈ s.relocations, ∃ r' ps,
    Passed kinds inputs cs s.dynamicRelocations r r' ps ∧ patch ∈ ps
  dynamic : s'.dynamicRelocations =
    cs.foldl (fun ds c => c.updateDynamicRelocations ds) s.dynamicRelocations
  cleared : s'.sectionsFileCleared = (s.sectionsFileCleared || cs.any ChangedInput.editsRecords)
  complete : cs.any ChangedInput.editsRecords = true → complete = true

section

variable {kinds : RelocationKinds} {complete : Bool} {inputs : Text → InputVersion}

section

variable {c : ChangedInput} {s s' : PatchProgress} {targets addends : List PassedRecord}

theorem sublist_turnPatches {target addend : PassedRecord} (htarget : target ∈ targets)
    (haddend : addend ∈ addends) : (addend.outputPatch.toList ++ target.outputPatch.toList).Sublist
      (c.turnPatches targets addends) := by
  have hone {q : PassedRecord} {qs : List PassedRecord} (hq : q ∈ qs) :
      q.outputPatch.toList.Sublist (qs.filterMap PassedRecord.outputPatch) := by
    cases hpatch : q.outputPatch with
    | none => exact List.nil_sublist _
    | some patch =>
      exact List.singleton_sublist.mpr (List.mem_filterMap.mpr ⟨q, hq, hpatch⟩)
  have haddends : addend.outputPatch.toList.Sublist (c.sectionPatches ++
      c.dynamicRelocationPatches ++ addends.filterMap PassedRecord.outputPatch) :=
    (hone haddend).trans (List.sublist_append_right _ _)
  exact (haddends.append (hone htarget)).trans (List.sublist_append_left _ _)

theorem mem_turnPatches {patch : SectionPatch} (h : patch ∈ c.turnPatches targets addends) :
    patch ∈ c.otherPatches ∨ (∃ addend ∈ addends, addend.outputPatch = some patch) ∨
      ∃ target ∈ targets, target.outputPatch = some patch := by
  simp only [ChangedInput.turnPatches, ChangedInput.otherPatches, mem_append,
    List.mem_filterMap] at h ⊢
  rcases h with (((h | h) | h) | h) | h
  · exact .inl (.inl (.inl h))
  · exact .inl (.inl (.inr h))
  · exact .inr (.inl h)
  · exact .inr (.inr h)
  · exact .inl (.inr h)

theorem InputTurn.forth (h : InputTurn kinds complete inputs c s s' targets addends)
    {r : RelocationRecord} (hr : r ∈ s.relocations) : ∃ target ∈ targets, ∃ addend ∈ addends,
      relocationTargetPatch kinds c.path c.bytes r = .ok target ∧
      relocationAddendPatch c.path c.bytes (c.previousSnapshot inputs) s.dynamicRelocations
        target.record = .ok addend ∧ addend.record ∈ s'.relocations := by
  obtain ⟨target, htarget, hr⟩ := (mem_of_mapM h.targetPass).1 r hr
  obtain ⟨addend, haddend, hrecord⟩ :=
    (mem_of_mapM h.addendPass).1 target.record (mem_map_of_mem htarget)
  refine ⟨target, htarget, addend, haddend, hr, hrecord, ?_⟩
  rw [h.progress]
  exact mem_map_of_mem haddend

theorem InputTurn.back (h : InputTurn kinds complete inputs c s s' targets addends)
    {addend : PassedRecord} (haddend : addend ∈ addends) : ∃ r ∈ s.relocations,
      ∃ target ∈ targets, relocationTargetPatch kinds c.path c.bytes r = .ok target ∧
        relocationAddendPatch c.path c.bytes (c.previousSnapshot inputs) s.dynamicRelocations
          target.record = .ok addend := by
  obtain ⟨_, hmem, hrecord⟩ := (mem_of_mapM h.addendPass).2 addend haddend
  obtain ⟨target, htarget, rfl⟩ := mem_map.mp hmem
  obtain ⟨r, hr, hpass⟩ := (mem_of_mapM h.targetPass).2 target htarget
  exact ⟨r, hr, target, htarget, hpass, hrecord⟩

end

/-- The induction is on the changed inputs, each of which turns the list of
records into a new one, record by record. -/
theorem loopPasses {cs : List ChangedInput} {s s' : PatchProgress}
    (h : cs.foldlM (patchChangedInput kinds complete inputs) s = .ok s') :
    ∃ added, LoopPasses kinds complete inputs cs s s' added := by
  induction cs generalizing s with
  | nil =>
    obtain rfl := Except.ok.inj h
    refine ⟨[], fun r hr => ⟨r, hr, [], .nil _ r, List.Sublist.refl _⟩,
      fun r hr => ⟨r, hr, [], .nil _ r, List.Sublist.refl _⟩, (List.append_nil _).symm,
      fun patch hpatch => absurd hpatch not_mem_nil, rfl, ?_, fun hno => ?_⟩
    · rw [any_nil, Bool.or_false]
    · cases hno
  | cons c cs ih =>
    obtain ⟨s₁, hfirst, h⟩ := bind_eq_ok.mp h
    obtain ⟨targets, addends, hturn⟩ := patchChangedInput_eq_ok hfirst
    obtain ⟨added, hrest⟩ := ih h
    have hrels : s₁.relocations = addends.map PassedRecord.record := by
      rw [hturn.progress]
    have hdyn : s₁.dynamicRelocations = c.updateDynamicRelocations s.dynamicRelocations := by
      rw [hturn.progress]
    have hrestPassed {r r' ps} (hpassed : Passed kinds inputs cs s₁.dynamicRelocations r r' ps) :
        Passed kinds inputs cs (c.updateDynamicRelocations s.dynamicRelocations) r r' ps :=
      hdyn ▸ hpassed
    refine ⟨c.turnPatches targets addends ++ added, ?_, ?_, ?_, ?_, ?_, ?_, ?_⟩
    · intro r hr
      obtain ⟨target, htarget, addend, haddend, htargetPass, haddendPass, hmem⟩ := hturn.forth hr
      obtain ⟨r', hr', ps, hpassed, hps⟩ := hrest.forth addend.record hmem
      exact ⟨r', hr', _, .cons htargetPass haddendPass (hrestPassed hpassed),
        (sublist_turnPatches htarget haddend).append hps⟩
    · intro r' hr'
      obtain ⟨r₁, hr₁, ps, hpassed, hps⟩ := hrest.back r' hr'
      rw [hrels] at hr₁
      obtain ⟨addend, haddend, rfl⟩ := mem_map.mp hr₁
      obtain ⟨r, hr, target, htarget, htargetPass, haddendPass⟩ := hturn.back haddend
      exact ⟨r, hr, _, .cons htargetPass haddendPass (hrestPassed hpassed),
        (sublist_turnPatches htarget haddend).append hps⟩
    · rw [hrest.patches, hturn.progress]
      exact List.append_assoc _ _ _
    · intro patch hpatch
      rcases mem_append.mp hpatch with hpatch | hpatch
      · rcases mem_turnPatches hpatch with hother | ⟨addend, haddend, hsome⟩ |
          ⟨target, htarget, hsome⟩
        · exact Or.inl ⟨c, mem_cons_self, hother⟩
        · obtain ⟨r, hr, target, htarget, htargetPass, haddendPass⟩ := hturn.back haddend
          obtain ⟨r', _, ps, hpassed, _⟩ := hrest.forth addend.record
            (hrels ▸ mem_map_of_mem haddend)
          refine Or.inr ⟨r, hr, r', _, .cons htargetPass haddendPass (hrestPassed hpassed), ?_⟩
          exact mem_append_left _ (mem_append_left _ (Option.mem_toList.mpr hsome))
        · obtain ⟨r, hr, htargetPass⟩ := (mem_of_mapM hturn.targetPass).2 target htarget
          obtain ⟨addend, haddend, haddendPass⟩ :=
            (mem_of_mapM hturn.addendPass).1 target.record (mem_map_of_mem htarget)
          obtain ⟨r', _, ps, hpassed, _⟩ := hrest.forth addend.record
            (hrels ▸ mem_map_of_mem haddend)
          refine Or.inr ⟨r, hr, r', _, .cons htargetPass haddendPass (hrestPassed hpassed), ?_⟩
          exact mem_append_left _ (List.mem_append_right _ (Option.mem_toList.mpr hsome))
      · rcases hrest.origin patch hpatch with ⟨c', hc', hother⟩ | ⟨r₁, hr₁, r', ps, hpassed, hmem⟩
        · exact Or.inl ⟨c', List.mem_cons_of_mem _ hc', hother⟩
        · rw [hrels] at hr₁
          obtain ⟨addend, haddend, rfl⟩ := mem_map.mp hr₁
          obtain ⟨r, hr, target, htarget, htargetPass, haddendPass⟩ := hturn.back haddend
          exact Or.inr ⟨r, hr, r', _, .cons htargetPass haddendPass (hrestPassed hpassed),
            List.mem_append_right _ hmem⟩
    · rw [hrest.dynamic, hdyn, List.foldl_cons]
    · rw [hrest.cleared, hturn.progress, any_cons, Bool.or_assoc]
    · intro hedits
      rw [any_cons, Bool.or_eq_true] at hedits
      exact hedits.elim hturn.complete hrest.complete

end

/-! ## One patch -/

/-- Two records have no byte of the output in common. -/
def RelocationRecord.Apart (r q : RelocationRecord) : Prop := ∀ i, r.Owns i → ¬ q.Owns i

namespace LinkedOutput

variable (kinds : RelocationKinds) (s : LinkedOutput) (p : ChangedInputs)

/-- The records describe the output and agree with the versions of the inputs. -/
structure Sound : Prop where
  describes : ∀ r ∈ s.relocations, r.Describes kinds s.output
  apart : ∀ r ∈ s.relocations, ∀ q ∈ s.relocations, r ≠ q → r.writtenValue.isSome →
    q.writtenValue.isSome → r.Apart q
  agrees : ∀ r ∈ s.relocations, r.Agrees s.inputs

/-- The records are written, so `sections_file` was cleared. -/
def Writes : Bool := p.inputs.any ChangedInput.editsRecords || p.fdesAdded

/-- What the code does not look after: a patch that edits a relocation record
writes the records.  The rest is what the passes take for granted of the
other planners and of the versions of the inputs. -/
structure Safe : Prop where
  saved : Writes p = true ∨ ∀ c ∈ p.inputs, ∀ r ∈ s.relocations, r.TargetPlaced c.path c.bytes ∧
    r.AddendKept c.path c.bytes (c.previousSnapshot s.inputs)
  follows : ∀ c ∈ p.inputs, ∀ r ∈ s.relocations, c.Follows kinds s.inputs s.dynamicRelocations r
  spares : ∀ r ∈ s.relocations, r.writtenValue.isSome → ∀ i, r.Owns i →
    (∀ c ∈ p.inputs, ∀ patch ∈ c.otherPatches, patch.toPatch.Spares i) ∧
      ∀ symbols patches, p.outputPatches s.output symbols = .ok patches →
        ∀ patch ∈ patches, patch.toPatch.Spares i
  buildId : ∀ output, (p.writeBuildId output).length = output.length ∧
    ∀ r ∈ s.relocations, r.writtenValue.isSome → r.field (p.writeBuildId output) = r.field output

variable {kinds s p}

variable {progress : PatchProgress} {s' : LinkedOutput}

theorem patchChangedInputs_eq_ok (h : s.patchChangedInputs kinds p = .ok (progress, s')) :
    ∃ outputPatches output, s.patchInputs kinds p = .ok progress ∧
      p.outputPatches s.output progress.outputSymbols = .ok outputPatches ∧
      (p.fdesAdded = true → p.reading = .complete) ∧
      patchOutputRangeRejectionReason (progress.patches ++ outputPatches) = none ∧
      applyPatches (progress.patches ++ outputPatches) s.output = .ok output ∧
      s' = s.persist p progress (p.writeBuildId output) := by
  unfold patchChangedInputs at h
  obtain ⟨_, hprogress, h⟩ := bind_eq_ok.mp h
  obtain ⟨_, _, h⟩ := bind_eq_ok.mp h
  obtain ⟨outputPatches, houtputPatches, h⟩ := bind_eq_ok.mp h
  obtain ⟨_, hcompl, h⟩ := bind_eq_ok.mp h
  obtain ⟨_, hrefuse, h⟩ := bind_eq_ok.mp h
  obtain ⟨output, hout, h⟩ := bind_eq_ok.mp h
  cases h
  refine ⟨outputPatches, output, hprogress, houtputPatches, ?_, ?_, hout, rfl⟩
  · intro hadded
    exact of_decide_eq_true (requireComplete_eq_ok.mp hcompl hadded)
  · unfold refuseOverlaps at hrefuse
    split at hrefuse
    · next hnone => exact hnone
    · cases hrefuse

/-- The patches that `patchInputs` leaves and the others that a patch applies. -/
structure Applied (kinds : RelocationKinds) (s : LinkedOutput) (p : ChangedInputs)
    (progress : PatchProgress) (added outputPatches : List SectionPatch)
    (output : List UInt8) : Prop where
  loop : LoopPasses kinds (p.reading = .complete) s.inputs p.inputs
    ⟨s.readRelocations p, s.readDynamicRelocations p, false, [], []⟩ progress added
  planned : ∃ symbols, p.outputPatches s.output symbols = .ok outputPatches
  disjoint : ((added ++ outputPatches).map SectionPatch.toPatch).Pairwise Patch.Disjoint
  applied : applyPatches (added ++ outputPatches) s.output = .ok output

namespace Applied

variable {progress : PatchProgress} {added outputPatches ps : List SectionPatch}
  {output : List UInt8} (h : Applied kinds s p progress added outputPatches output)
  {r r' : RelocationRecord}

include h

theorem length : output.length = s.output.length := Patch.length_of_applyAll h.applied

theorem writtenBytes {patch : SectionPatch} (hpatch : patch ∈ added)
    (hoff : patch.outputOffset = r.outputOffset) (hsize : patch.size = r.size) :
    patch.writtenBytes (r.field s.output) = .ok (r.field output) := by
  have hmem : patch.toPatch ∈ (added ++ outputPatches).map SectionPatch.toPatch :=
    mem_map_of_mem (mem_append_left _ hpatch)
  have hwindow := Patch.applyAll_window h.applied h.disjoint hmem
  rw [RelocationRecord.field, RelocationRecord.field, ← hoff, ← hsize]
  exact hwindow

variable (hsafe : Safe kinds s p)

include hsafe

theorem field_of_still (hsound : s.Sound kinds) (hr : r ∈ s.relocations)
    (hwritten : r.writtenValue.isSome) (hread : ∀ q ∈ s.readRelocations p, q ∈ s.relocations)
    (hchain : ∀ q ∈ s.readRelocations p, ∀ q' qs, Passed kinds s.inputs p.inputs
      (s.readDynamicRelocations p) q q' qs → (∀ patch ∈ qs, patch.outputOffset = q.outputOffset ∧
        patch.size = q.size ∧ q.writtenValue.isSome) ∧ (q = r → qs = [])) :
    r.field output = r.field s.output := by
  refine RelocationRecord.field_congr fun i hi => ?_
  obtain ⟨hothers, hlater⟩ := hsafe.spares r hr hwritten i hi
  refine Patch.applyAll_getElem? h.applied fun _ hmapped => ?_
  obtain ⟨patch, hpatch, rfl⟩ := mem_map.mp hmapped
  rcases mem_append.mp hpatch with hpatch | hpatch
  · rcases h.loop.origin patch hpatch with ⟨c, hc, hother⟩ | ⟨q, hq, q', qs, hpassed, hmem⟩
    · exact hothers c hc patch hother
    · obtain ⟨hfield, hstill⟩ := hchain q hq q' qs hpassed
      obtain ⟨hoff, hsize, hsome⟩ := hfield patch hmem
      have hne : r ≠ q := by
        rintro rfl
        rw [hstill rfl] at hmem
        exact not_mem_nil hmem
      have hapart := hsound.apart r hr q (hread q hq) hne hwritten hsome
      refine Patch.spares_of_not_owns fun howns => hapart i hi ?_
      rw [RelocationRecord.Owns, ← hoff, ← hsize]
      exact howns
  · obtain ⟨symbols, hsyms⟩ := h.planned
    exact hlater symbols outputPatches hsyms patch hpatch

omit hsafe

theorem field_of_moved (hsound : s.Sound kinds) (hr : r ∈ s.relocations) {dynamic : Prop}
    [Decidable dynamic] (hchain : RecordChain kinds dynamic r r' ps) (hps : ps.Sublist added)
    (hne : ps ≠ []) {value : UInt64} (hvalue : r'.writtenValue = some value) :
    r.writeValue kinds value (r.field s.output) = .ok (r.field output) := by
  obtain ⟨patch, rest, rfl⟩ := List.exists_cons_of_ne_nil hne
  have hmem : patch ∈ added := hps.subset mem_cons_self
  obtain ⟨hoff, hsize, hsome⟩ := hchain.field patch mem_cons_self
  obtain ⟨previous, hprev⟩ := Option.isSome_iff_exists.mp hsome
  have hlen : (r.field s.output).length = r.size.toNat :=
    Store.length_window (hsound.describes r hr previous hprev).1
  have hwrites := h.writtenBytes hmem hoff hsize
  have hpos := hchain.nonempty patch mem_cons_self _ _ hlen hwrites
  cases rest with
  | nil => exact hchain.single patch rfl _ _ hlen hwrites value hvalue
  | cons other rest =>
    -- two patches of one record own the same range
    have hpair : ((patch :: other :: rest).map SectionPatch.toPatch).Pairwise Patch.Disjoint :=
      h.disjoint.sublist ((hps.trans (List.sublist_append_left _ _)).map _)
    have hdisj := (List.pairwise_cons.mp hpair).1 other.toPatch mem_cons_self
    obtain ⟨hoff', hsize', _⟩ := hchain.field other (List.mem_cons_of_mem _ mem_cons_self)
    have howns (q : SectionPatch) (hq : q.outputOffset = r.outputOffset)
        (hq' : q.size = r.size) : q.toPatch.Owns r.outputOffset.toNat := by
      refine ⟨le_of_eq (congrArg UInt64.toNat hq), ?_⟩
      show r.outputOffset.toNat < q.outputOffset.toNat + q.size.toNat
      rw [hq, hq']
      omega
    exact absurd (howns other hoff' hsize') (hdisj _ (howns patch hoff hsize))

end Applied

/-- What a patch does to a record, on disk and in the output. -/
structure RecordStep (kinds : RelocationKinds) (s s' : LinkedOutput) (r r' : RelocationRecord) :
    Prop where
  place : r.SamePlace r'
  base : r'.base (r.IsDynamic s.dynamicRelocations) = r.base (r.IsDynamic s.dynamicRelocations)
  target : r'.target = r.target ∨ ∃ path, (r.positionIn path (s.inputs path)).isSome
  addend : r'.addend = r.addend ∨ (∃ path, (r.entryFor path (s.inputs path)).isSome) ∧
    (r.size = 8 ∨ r.IsDynamic s.dynamicRelocations)
  field : ∀ value, r'.writtenValue = some value →
    r.writtenValue = some value ∧ r.field s'.output = r.field s.output ∨
      r.Rewritable kinds ∧ r.writeValue kinds value (r.field s.output) = .ok (r.field s'.output)
  dynamic : r.IsDynamic s'.dynamicRelocations ↔ r.IsDynamic s.dynamicRelocations
  hasTarget : ∀ path, (r.positionIn path (s'.inputs path)).isSome =
    (r.positionIn path (s.inputs path)).isSome
  hasEntry : ∀ path, (r.entryFor path (s'.inputs path)).isSome =
    (r.entryFor path (s.inputs path)).isSome

/-- What a patch does to an output: every record goes one step. -/
structure OutputStep (kinds : RelocationKinds) (s s' : LinkedOutput)
    (f : RelocationRecord → RelocationRecord) : Prop where
  length : s'.output.length = s.output.length
  records : ∀ r', r' ∈ s'.relocations ↔ ∃ r ∈ s.relocations, f r = r'
  step : ∀ r ∈ s.relocations, RecordStep kinds s s' r (f r)
  agrees : ∀ r ∈ s.relocations, (f r).Agrees s'.inputs

variable {cs : List ChangedInput}

theorem recordChanged_of_notMem {path : Text}
    (h : path ∉ cs.map ChangedInput.path) (inputs : Text → InputVersion) :
    recordChanged cs inputs path = inputs path := by
  induction cs generalizing inputs with
  | nil => rfl
  | cons c cs ih =>
    rw [List.map_cons, mem_cons, not_or] at h
    exact (ih h.2 _).trans (Function.update_of_ne h.1 _ _)

theorem recordChanged_of_mem (hpaths : (cs.map ChangedInput.path).Nodup)
    {c : ChangedInput} (hc : c ∈ cs) (inputs : Text → InputVersion) :
    recordChanged cs inputs c.path = c.bytes := by
  induction cs generalizing inputs with
  | nil => cases hc
  | cons c' cs ih =>
    obtain ⟨hnot, hpaths⟩ := List.nodup_cons.mp hpaths
    rcases mem_cons.mp hc with rfl | hc
    · exact (recordChanged_of_notMem hnot _).trans (Function.update_self _ _ _)
    · exact ih hpaths hc _

theorem Safe.isSome (hsafe : Safe kinds s p) {r : RelocationRecord} (hr : r ∈ s.relocations)
    (path : Text) :
    (r.positionIn path (s.recordInputs p path)).isSome = (r.positionIn path (s.inputs path)).isSome ∧
      (r.entryFor path (s.recordInputs p path)).isSome =
        (r.entryFor path (s.inputs path)).isSome := by
  rw [recordInputs]
  by_cases hpath : path ∈ p.inputs.map ChangedInput.path
  · obtain ⟨c, hc, rfl⟩ := mem_map.mp hpath
    rw [recordChanged_of_mem p.paths_nodup hc]
    exact ⟨(hsafe.follows c hc r hr).hasTarget, (hsafe.follows c hc r hr).hasEntry⟩
  · rw [recordChanged_of_notMem hpath]
    exact ⟨rfl, rfl⟩

section

variable {progress : PatchProgress} {added outputPatches : List SectionPatch} {output : List UInt8}

variable (output) in
/-- What is read back is written or as it was. -/
theorem persist_relocations (hloop : LoopPasses kinds (p.reading = .complete) s.inputs p.inputs
      ⟨s.readRelocations p, s.readDynamicRelocations p, false, [], []⟩ progress added) :
    (s.persist p progress output).relocations =
        (if Writes p then sortDedup progress.relocations else s.relocations) ∧
      (s.persist p progress output).dynamicRelocations =
        if Writes p then sortDedup progress.dynamicRelocations else s.dynamicRelocations := by
  have hcleared : (progress.sectionsFileCleared || p.fdesAdded) = Writes p := by
    rw [hloop.cleared, Bool.false_or]
    rfl
  rw [persist, hcleared]
  exact ⟨rfl, rfl⟩

theorem Applied.outputStep_of_kept (h : Applied kinds s p progress added outputPatches output)
    (hsafe : Safe kinds s p) (hsound : s.Sound kinds) (hwrites : Writes p = false)
    (hread : ∀ q ∈ s.readRelocations p, q ∈ s.relocations) :
    OutputStep kinds s (s.persist p progress (p.writeBuildId output)) id ∧
      ∀ r, r ∈ progress.relocations ↔ r ∈ s.readRelocations p := by
  have hkept := hsafe.saved.resolve_left (by rw [hwrites]; exact Bool.false_ne_true)
  have hpassed : ∀ q ∈ s.readRelocations p, ∀ q' qs, Passed kinds s.inputs p.inputs
      (s.readDynamicRelocations p) q q' qs → q' = q ∧ qs = [] :=
    fun q hq q' qs hpassed => hpassed.eq_of_kept fun c hc => hkept c hc q (hread q hq)
  obtain ⟨hrecords, hdyn⟩ := persist_relocations (p.writeBuildId output) h.loop
  rw [if_neg (by rw [hwrites]; exact Bool.false_ne_true)] at hrecords hdyn
  have hfield : ∀ r ∈ s.relocations, r.writtenValue.isSome →
      r.field (p.writeBuildId output) = r.field s.output := by
    intro r hr hwritten
    refine ((hsafe.buildId output).2 r hr hwritten).trans
      (h.field_of_still hsafe hsound hr hwritten hread fun q hq q' qs hq' => ?_)
    obtain ⟨rfl, rfl⟩ := hpassed q hq q' qs hq'
    exact ⟨fun patch hpatch => absurd hpatch not_mem_nil, fun _ => rfl⟩
  refine ⟨⟨?_, fun r' => ?_, fun r hr => ?_, fun r hr path => ?_⟩, fun r => ⟨?_, ?_⟩⟩
  · exact (hsafe.buildId output).1.trans h.length
  · rw [hrecords]
    exact ⟨fun hr' => ⟨r', hr', rfl⟩, fun ⟨r, hr, hsame⟩ => hsame ▸ hr⟩
  · refine ⟨.refl r, rfl, Or.inl rfl, Or.inl rfl, fun value hvalue => Or.inl ⟨hvalue, ?_⟩, ?_,
      fun path => (hsafe.isSome hr path).1, fun path => (hsafe.isSome hr path).2⟩
    · exact hfield r hr (by rw [id_eq] at hvalue; rw [hvalue]; rfl)
    · rw [hdyn]
  · show r.TargetPlaced path (s.recordInputs p path) ∧ r.AddendPlaced path (s.recordInputs p path)
    rw [recordInputs]
    by_cases hpath : path ∈ p.inputs.map ChangedInput.path
    · obtain ⟨c, hc, rfl⟩ := mem_map.mp hpath
      rw [recordChanged_of_mem p.paths_nodup hc]
      refine ⟨(hkept c hc r hr).1, fun hsize entry hentry => ?_⟩
      rcases (hkept c hc r hr).2 entry hentry with hsame | ⟨previous, hprev, entry', hfound, hraw⟩
      · exact hsame
      · rw [eq_of_mem_previousSnapshot hprev] at hfound
        exact hraw.symm.trans ((hsound.agrees r hr c.path).2 hsize entry' hfound)
    · rw [recordChanged_of_notMem hpath]
      exact hsound.agrees r hr path
  · intro hr
    obtain ⟨q, hq, qs, hq', _⟩ := h.loop.back r hr
    rw [(hpassed q hq r qs hq').1]
    exact hq
  · intro hr
    obtain ⟨r', hr', qs, hr'', _⟩ := h.loop.forth r hr
    rw [(hpassed r hr r' qs hr'').1] at hr'
    exact hr'

theorem isDynamic_foldl {cs : List ChangedInput} {r : RelocationRecord}
    {ds : List DynamicRelocationRecord}
    (h : ∀ c ∈ cs, ∀ d, d ∈ c.addedDynamicRelocations ∨ d ∈ c.removedDynamicRelocations ∧
      d.hasRestorableRelaOutputInfo = false → ¬ d.StandsFor r) :
    r.IsDynamic (cs.foldl (fun ds c => c.updateDynamicRelocations ds) ds) ↔ r.IsDynamic ds := by
  induction cs generalizing ds with
  | nil => exact Iff.rfl
  | cons c cs ih =>
    obtain ⟨hc, hcs⟩ := forall_mem_cons.mp h
    exact (ih hcs).trans (isDynamic_update hc)

theorem Applied.outputStep_of_writes (h : Applied kinds s p progress added outputPatches output)
    (hsafe : Safe kinds s p) (hsound : s.Sound kinds) (hwrites : Writes p = true)
    (hcompl : p.reading = .complete) :
    (∃ f, OutputStep kinds s (s.persist p progress (p.writeBuildId output)) f) ∧
      ∀ r, r ∈ progress.relocations ↔
        r ∈ (s.persist p progress (p.writeBuildId output)).readRelocations p := by
  have hread : s.readRelocations p = s.relocations := by rw [readRelocations, hcompl]
  have hreadDynamic : s.readDynamicRelocations p = s.dynamicRelocations := by
    rw [readDynamicRelocations, hcompl]
  obtain ⟨hrecords, hdyn⟩ := persist_relocations (p.writeBuildId output) h.loop
  rw [if_pos hwrites] at hrecords hdyn
  have hmem : ∀ r, r ∈ (s.persist p progress (p.writeBuildId output)).relocations ↔
      r ∈ progress.relocations := fun r => by rw [hrecords, mem_sortDedup]
  have hpassed {r r' : RelocationRecord} {ps : List SectionPatch} (hr : r ∈ s.relocations)
      (hpassed : Passed kinds s.inputs p.inputs (s.readDynamicRelocations p) r r' ps) :
      PatchStep kinds s.inputs s.dynamicRelocations p.inputs r r' ps :=
    (hreadDynamic ▸ hpassed).patchStep p.paths_nodup fun c hc => hsafe.follows c hc r hr
  have hforth : ∀ r ∈ s.relocations, ∃ r' ∈ progress.relocations, ∃ ps,
      Passed kinds s.inputs p.inputs (s.readDynamicRelocations p) r r' ps ∧ ps.Sublist added :=
    fun r hr => h.loop.forth r (show r ∈ s.readRelocations p from hread ▸ hr)
  constructor
  · choose image himage patches hpatches hsublist using hforth
    refine ⟨fun r => if hr : r ∈ s.relocations then image r hr else r, ?_, fun r' => ?_,
      fun r hr => ?_, fun r hr => ?_⟩
    · exact (hsafe.buildId output).1.trans h.length
    · rw [hmem]
      constructor
      · intro hr'
        obtain ⟨r, hr, ps, hr'', _⟩ := h.loop.back r' hr'
        have hr : r ∈ s.relocations := hread ▸ hr
        refine ⟨r, hr, ?_⟩
        rw [dif_pos hr]
        exact ((hpatches r hr).unique hr'').1
      · rintro ⟨r, hr, rfl⟩
        rw [dif_pos hr]
        exact himage r hr
    · rw [dif_pos hr]
      have hstep := hpassed hr (hpatches r hr)
      refine ⟨hstep.chain.place, hstep.chain.base, hstep.target, hstep.addend,
        fun value hvalue => ?_, ?_, fun path => (hsafe.isSome hr path).1,
        fun path => (hsafe.isSome hr path).2⟩
      · have hbuildId (hwritten : r.writtenValue.isSome) :
            r.field (p.writeBuildId output) = r.field output :=
          (hsafe.buildId output).2 r hr hwritten
        by_cases hnone : patches r hr = []
        · have hsame := hstep.chain.still hnone
          have hwritten : r.writtenValue.isSome := by
            rw [← hsame, hvalue]
            rfl
          refine .inl ⟨hsame.symm.trans hvalue, (hbuildId hwritten).trans
            (h.field_of_still hsafe hsound hr hwritten (fun q hq => hread ▸ hq)
              fun q hq q' qs hq' => ⟨?_, ?_⟩)⟩
          · exact (hpassed (hread ▸ hq) hq').chain.field
          · rintro rfl
            exact ((hpatches q hr).unique hq').2 ▸ hnone
        · obtain ⟨patch, hpatch⟩ := List.exists_mem_of_ne_nil _ hnone
          have hwritten := (hstep.chain.field patch hpatch).2.2
          refine .inr ⟨hstep.rewritable hnone, ?_⟩
          show r.writeValue kinds value (r.field s.output) = .ok (r.field (p.writeBuildId output))
          rw [hbuildId hwritten]
          exact h.field_of_moved hsound hr hstep.chain (hsublist r hr) hnone hvalue
      · rw [hdyn, h.loop.dynamic, RelocationRecord.IsDynamic]
        simp only [mem_sortDedup]
        rw [← hreadDynamic]
        exact isDynamic_foldl fun c hc => (hsafe.follows c hc r hr).dynamic
    · rw [dif_pos hr]
      exact (hpassed hr (hpatches r hr)).agrees s.inputs (fun _ _ => rfl) (hsound.agrees r hr)
  · intro r
    have hread' : (s.persist p progress (p.writeBuildId output)).readRelocations p =
        (s.persist p progress (p.writeBuildId output)).relocations := by
      rw [readRelocations, hcompl]
    rw [hread', hmem]

end

theorem outputStep_of_safe (hsound : s.Sound kinds) (hsafe : Safe kinds s p)
    (h : s.patchChangedInputs kinds p = .ok (progress, s')) :
    (∃ f, OutputStep kinds s s' f) ∧ ∀ r, r ∈ progress.relocations ↔ r ∈ s'.readRelocations p := by
  obtain ⟨outputPatches, output, hprogress, hplanned, hcompl, hrefused, happlied, rfl⟩ :=
    patchChangedInputs_eq_ok h
  obtain ⟨added, hloop⟩ := loopPasses hprogress
  have hpatches : progress.patches = added := hloop.patches
  rw [hpatches] at hrefused happlied
  have happlied : Applied kinds s p progress added outputPatches output :=
    ⟨hloop, ⟨_, hplanned⟩, disjoint_of_not_rejected hrefused, happlied⟩
  have hread : ∀ q ∈ s.readRelocations p, q ∈ s.relocations := by
    intro q hq
    unfold readRelocations at hq
    split at hq
    · cases hq
    · exact (mem_filter.mp hq).1
    · exact hq
  cases hwrites : Writes p with
  | true =>
    refine happlied.outputStep_of_writes hsafe hsound hwrites ?_
    rw [Writes, Bool.or_eq_true] at hwrites
    rcases hwrites with hedits | hadded
    · exact of_decide_eq_true (hloop.complete hedits)
    · exact hcompl hadded
  | false =>
    obtain ⟨hstep, hsaved⟩ := happlied.outputStep_of_kept hsafe hsound hwrites hread
    refine ⟨⟨id, hstep⟩, fun r => (hsaved r).trans ?_⟩
    have hsame : (s.persist p progress (p.writeBuildId output)).relocations = s.relocations := by
      rw [(persist_relocations _ hloop).1, hwrites]
      rfl
    rw [readRelocations, readRelocations, hsame]

theorem isSome_of_base {dynamic : Prop} [Decidable dynamic] {r r' : RelocationRecord}
    (h : r'.base dynamic = r.base dynamic) : r'.writtenValue.isSome = r.writtenValue.isSome := by
  have hsome := congrArg Option.isSome h
  rwa [RelocationRecord.base, RelocationRecord.base, Option.isSome_map, Option.isSome_map] at hsome

theorem Sound.step {f : RelocationRecord → RelocationRecord}
    (hsound : s.Sound kinds) (h : OutputStep kinds s s' f) : s'.Sound kinds := by
  have hwritten {r : RelocationRecord} (hr : r ∈ s.relocations) :
      (f r).writtenValue.isSome = r.writtenValue.isSome := isSome_of_base (h.step r hr).base
  refine ⟨fun r' hr' => ?_, fun r' hr' q' hq' => ?_, fun r' hr' => ?_⟩
  · obtain ⟨r, hr, rfl⟩ := (h.records r').mp hr'
    have hstep := h.step r hr
    intro value hvalue
    have hplace := hstep.place
    rw [hplace.outputOffset, hplace.size, hplace.writeValue, hplace.field, h.length]
    obtain ⟨previous, hprev⟩ : ∃ previous, r.writtenValue = some previous := by
      rw [← Option.isSome_iff_exists, ← hwritten hr, hvalue]
      rfl
    refine ⟨(hsound.describes r hr previous hprev).1, ?_⟩
    rcases hstep.field value hvalue with ⟨hsame, hfield⟩ | ⟨hrewritable, hwrites⟩
    · rw [hfield]
      exact (hsound.describes r hr value hsame).2
    · rw [hrewritable.writeValue hwrites]
      exact hwrites
  · obtain ⟨r, hr, rfl⟩ := (h.records r').mp hr'
    obtain ⟨q, hq, rfl⟩ := (h.records q').mp hq'
    intro hne hrsome hqsome
    rw [hwritten hr] at hrsome
    rw [hwritten hq] at hqsome
    have hapart := hsound.apart r hr q hq (fun hsame => hne (congrArg f hsame)) hrsome hqsome
    intro i hi hi'
    have hrplace := (h.step r hr).place
    have hqplace := (h.step q hq).place
    rw [RelocationRecord.Owns, hrplace.outputOffset, hrplace.size] at hi
    rw [RelocationRecord.Owns, hqplace.outputOffset, hqplace.size] at hi'
    exact hapart i hi hi'
  · obtain ⟨r, hr, rfl⟩ := (h.records r').mp hr'
    exact h.agrees r hr

end LinkedOutput

/-! ## Runs of patches -/

namespace LinkedOutput

variable {kinds : RelocationKinds}

theorem RecordStep.refl (s : LinkedOutput) (r : RelocationRecord) : RecordStep kinds s s r r :=
  ⟨.refl r, rfl, .inl rfl, .inl rfl, fun _ hvalue => .inl ⟨hvalue, rfl⟩, Iff.rfl,
    fun _ => rfl, fun _ => rfl⟩

theorem RecordStep.trans {s s' s'' : LinkedOutput} {r r' r'' : RelocationRecord}
    (h : RecordStep kinds s s' r r') (h' : RecordStep kinds s' s'' r' r'') :
    RecordStep kinds s s'' r r'' := by
  have hdyn : r'.IsDynamic s'.dynamicRelocations ↔ r.IsDynamic s.dynamicRelocations :=
    h.place.isDynamic.trans h.dynamic
  have hbase := h'.base
  rw [RelocationRecord.base_congr hdyn, RelocationRecord.base_congr hdyn] at hbase
  refine ⟨h.place.trans h'.place, hbase.trans h.base, ?_, ?_, fun value hvalue => ?_,
    ?_, fun path => ?_, fun path => ?_⟩
  · rcases h'.target with hsame | ⟨path, hfound⟩
    · exact hsame ▸ h.target
    · rw [h.place.positionIn, h.hasTarget] at hfound
      exact .inr ⟨path, hfound⟩
  · rcases h'.addend with hsame | ⟨⟨path, hfound⟩, hreason⟩
    · exact hsame ▸ h.addend
    · rw [h.place.entryFor, h.hasEntry] at hfound
      rw [h.place.size, hdyn] at hreason
      exact .inr ⟨⟨path, hfound⟩, hreason⟩
  · obtain ⟨earlier, hearlier⟩ : ∃ earlier, r'.writtenValue = some earlier := by
      rw [← Option.isSome_iff_exists, ← isSome_of_base hbase, hvalue]
      rfl
    have hfirst := h.field earlier hearlier
    rcases h'.field value hvalue with ⟨hsame, hfield⟩ | ⟨hrewritable, hwrites⟩
    · cases hearlier.symm.trans hsame
      rw [h.place.field, h.place.field] at hfield
      rw [hfield]
      exact hfirst
    · rw [h.place.writeValue, h.place.field, h.place.field] at hwrites
      have hrewritable := h.place.rewritable.mp hrewritable
      refine .inr ⟨hrewritable, ?_⟩
      rcases hfirst with ⟨_, hfield⟩ | ⟨_, hearlierWrites⟩
      · rw [← hfield]
        exact hwrites
      · rw [← hrewritable.writeValue hearlierWrites]
        exact hwrites
  · rw [← h.place.isDynamic, h'.dynamic]
    exact hdyn
  · rw [← h.hasTarget, ← h.place.positionIn, ← h.place.positionIn]
    exact h'.hasTarget path
  · rw [← h.hasEntry, ← h.place.entryFor, ← h.place.entryFor]
    exact h'.hasEntry path

theorem OutputStep.trans {s s' s'' : LinkedOutput} {f g : RelocationRecord → RelocationRecord}
    (h : OutputStep kinds s s' f) (h' : OutputStep kinds s' s'' g) :
    OutputStep kinds s s'' (g ∘ f) := by
  have hmem {r : RelocationRecord} (hr : r ∈ s.relocations) : f r ∈ s'.relocations :=
    (h.records _).mpr ⟨r, hr, rfl⟩
  refine ⟨h'.length.trans h.length, fun r' => ?_, fun r hr => (h.step r hr).trans (h'.step _ (hmem hr)),
    fun r hr => h'.agrees _ (hmem hr)⟩
  rw [h'.records]
  constructor
  · rintro ⟨q, hq, rfl⟩
    obtain ⟨r, hr, rfl⟩ := (h.records q).mp hq
    exact ⟨r, hr, rfl⟩
  · rintro ⟨r, hr, rfl⟩
    exact ⟨f r, hmem hr, rfl⟩

/-- The states that a run of patches reaches, each of which meets a condition. -/
inductive Reached (kinds : RelocationKinds) (condition : LinkedOutput → ChangedInputs → Prop)
    (s : LinkedOutput) : LinkedOutput → Prop
  | start : Reached kinds condition s s
  | patch {s' s'' : LinkedOutput} {p : ChangedInputs} {progress : PatchProgress}
      (hrun : Reached kinds condition s s') (hcondition : condition s' p)
      (h : s'.patchChangedInputs kinds p = .ok (progress, s'')) : Reached kinds condition s s''

/-- After each patch of a run the records of the memory are read back, the
records describe the output and the inputs, and where two states have the same
versions of the inputs of a record, its field holds the same bytes. -/
structure RecordsFollow (kinds : RelocationKinds)
    (condition : LinkedOutput → ChangedInputs → Prop) (s : LinkedOutput) : Prop where
  saved : ∀ s' p progress s'', Reached kinds condition s s' → condition s' p →
    s'.patchChangedInputs kinds p = .ok (progress, s'') →
      ∀ r, r ∈ progress.relocations ↔ r ∈ s''.readRelocations p
  describes : ∀ s', Reached kinds condition s s' → ∀ r ∈ s'.relocations,
    r.Describes kinds s'.output ∧ r.Agrees s'.inputs
  restored : ∀ s' s'', Reached kinds condition s s' → Reached kinds condition s' s'' →
    ∀ r ∈ s'.relocations, r.writtenValue.isSome →
      (∀ path, r.inputFile = path ∨ (∃ t, r.target = some t ∧ t.inputFile = path) →
        s''.inputs path = s'.inputs path) →
      r.field s''.output = r.field s'.output

theorem Reached.outputStep {s s' : LinkedOutput} (hsound : s.Sound kinds)
    (h : Reached kinds (Safe kinds) s s') : s'.Sound kinds ∧ ∃ f, OutputStep kinds s s' f := by
  induction h with
  | start =>
    exact ⟨hsound, id, rfl, fun r => ⟨fun hr => ⟨r, hr, rfl⟩, fun ⟨_, hr, hsame⟩ => hsame ▸ hr⟩,
      fun r _ => .refl s r, hsound.agrees⟩
  | patch hrun hcondition h ih =>
    obtain ⟨hsound', f, hf⟩ := ih
    obtain ⟨⟨g, hg⟩, _⟩ := outputStep_of_safe hsound' hcondition h
    exact ⟨hsound'.step hg, g ∘ f, hf.trans hg⟩

theorem RecordStep.writtenValue_eq {s s' : LinkedOutput} {r r' : RelocationRecord}
    (h : RecordStep kinds s s' r r') (hr : r.Agrees s.inputs) (hr' : r'.Agrees s'.inputs)
    (hinputs : ∀ path, r.inputFile = path ∨ (∃ t, r.target = some t ∧ t.inputFile = path) →
      s'.inputs path = s.inputs path) : r'.writtenValue = r.writtenValue := by
  have htarget : r'.targetOffset = r.targetOffset := by
    have hrecorded : r'.recordedPosition = r.recordedPosition := by
      rcases h.target with hsame | ⟨path, hfound⟩
      · rw [recordedPosition, recordedPosition, hsame]
      · obtain ⟨position, hposition⟩ := Option.isSome_iff_exists.mp hfound
        have hsame := hinputs path (.inr (target_of_positionIn hfound))
        have hposition' : r'.positionIn path (s'.inputs path) = some position := by
          rw [h.place.positionIn, hsame, hposition]
        rw [(hr path).1 position hposition, (hr' path).1 position hposition']
    rw [recordedPosition, recordedPosition] at hrecorded
    rw [RelocationRecord.targetOffset, RelocationRecord.targetOffset]
    rcases h.place.target with hsame | ⟨t, offset, ht, ht'⟩
    · rw [hsame]
    · rw [ht, ht'] at hrecorded ⊢
      have hoff := congrArg SymbolPosition.sectionOffset (Option.some.inj hrecorded)
      exact congrArg (fun offset : UInt64 => (offset.toNat : Int)) hoff
  have haddend : ¬ r.IsDynamic s.dynamicRelocations → r'.addend = r.addend := by
    intro hplain
    rcases h.addend with hsame | ⟨⟨path, hfound⟩, hreason⟩
    · exact hsame
    · obtain ⟨entry, hentry⟩ := Option.isSome_iff_exists.mp hfound
      have hsize := hreason.resolve_right hplain
      have hsame := hinputs path (.inl (inputFile_of_entryFor hfound))
      have hentry' : r'.entryFor path (s'.inputs path) = some entry := by
        rw [h.place.entryFor, hsame, hentry]
      rw [← (hr path).2 hsize entry hentry, (hr' path).2 (h.place.size.trans hsize) entry hentry']
  have hbase := h.base
  rw [RelocationRecord.base, htarget] at hbase
  have hcarried : (if r.IsDynamic s.dynamicRelocations then (0 : Int) else r'.addend.toInt) =
      if r.IsDynamic s.dynamicRelocations then 0 else r.addend.toInt := by
    by_cases hdyn : r.IsDynamic s.dynamicRelocations
    · rw [if_pos hdyn, if_pos hdyn]
    · rw [if_neg hdyn, if_neg hdyn, haddend hdyn]
  rw [hcarried] at hbase
  refine Option.map_injective (fun v v' hvalues => ?_) hbase
  exact UInt64.toNat_inj.mp (by omega)

/-- In every run of safe patches of an output whose records describe it, the
records that each patch ends with are read back, they describe the output, and
going back to earlier versions of the inputs brings back the earlier bytes. -/
theorem recordsFollow_of_safe {s : LinkedOutput} (hsound : s.Sound kinds) :
    RecordsFollow kinds (Safe kinds) s where
  saved s' p progress s'' hrun hsafe h :=
    (outputStep_of_safe (hrun.outputStep hsound).1 hsafe h).2
  describes s' hrun r hr :=
    ⟨(hrun.outputStep hsound).1.describes r hr, (hrun.outputStep hsound).1.agrees r hr⟩
  restored s' s'' hrun hrun' r hr hwritten hinputs := by
    have hsound' := (hrun.outputStep hsound).1
    obtain ⟨_, f, hf⟩ := hrun'.outputStep hsound'
    obtain ⟨value, hvalue⟩ := Option.isSome_iff_exists.mp hwritten
    have hstep := hf.step r hr
    have hsame := hstep.writtenValue_eq (hsound'.agrees r hr) (hf.agrees r hr) hinputs
    rcases hstep.field value (hsame.trans hvalue) with ⟨_, hfield⟩ | ⟨_, hwrites⟩
    · exact hfield
    · have hdescribes := (hsound'.describes r hr value hvalue).2
      exact Except.ok.inj (hwrites.symm.trans hdescribes)

/-! ## One relocation of one object -/

/-- An object with one `R_X86_64_64` relocation in its first section. -/
def objectVersion (addend : Int64) : InputVersion := fun _ =>
  .ok (some ⟨.ok [], some fun _ => [⟨0, addend⟩]⟩)

/-- The output is the relocated field; the object is linked with the addend 0. -/
def relocatedOutput : LinkedOutput where
  relocations := [{
    targetSymbolId := 1, writtenValue := some 4096, targetValue := 4096, targetName := none,
    target := none, inputFile := "612e6f".toList, input := "612e6f".toList, sectionIndex := 1,
    relocationOffset := 0, outputOffset := 0, size := 8, kind := 1, addend := 0 }]
  dynamicRelocations := []
  output := leBytes 4096 8
  inputs _ := objectVersion 0

/-- The object, with a new addend and nothing else; the patch that follows it. -/
def addendPatch (reading : RecordReading) (sectionsChanged : Bool) (addend : Int64) :
    ChangedInputs where
  reading := reading
  inputs := [{
    path := "612e6f".toList, bytes := objectVersion addend, snapshotReadable := true,
    sectionPatches := [], dynamicRelocationPatches := [], ehFramePatches := [],
    sectionsChanged := sectionsChanged, addedDynamicRelocations := [],
    removedDynamicRelocations := [], fdesRemoved := false, fdesUpdated := false }]
  paths_nodup := List.nodup_singleton _
  outputPatches _ _ := .ok []
  fdesAdded := false
  writeBuildId output := output

/-- No kind is written into instructions. -/
def plainKinds : RelocationKinds := fun _ => none

theorem relocatedOutput_sound : relocatedOutput.Sound plainKinds := by
  refine ⟨fun r hr => ?_, fun r hr q hq hne => ?_, fun r hr path => ⟨?_, ?_⟩⟩
  all_goals obtain rfl := mem_singleton.mp hr
  · intro value hvalue
    cases hvalue
    exact ⟨by decide, rfl⟩
  · obtain rfl := mem_singleton.mp hq
    exact absurd rfl hne
  · intro position hposition
    cases hposition
  · intro _ entry hentry
    unfold RelocationRecord.entryFor at hentry
    split at hentry
    · cases hentry
      rfl
    · cases hentry

theorem safe_addendPatch : Safe plainKinds relocatedOutput (addendPatch .complete true 4) := by
  refine ⟨.inl rfl, fun c hc r hr => ?_, fun r hr _ i _ => ⟨fun c hc patch hpatch => ?_,
    fun _ patches hpatches patch hpatch => ?_⟩, fun output => ⟨rfl, fun _ _ _ => rfl⟩⟩
  · obtain rfl := mem_singleton.mp hc
    obtain rfl := mem_singleton.mp hr
    refine ⟨rfl, rfl, fun _ relInfo hkind => ?_, fun _ _ => rfl, fun d hd => ?_⟩
    · cases hkind
    · rcases hd with hd | ⟨hd, _⟩
      · cases hd
      · cases hd
  · obtain rfl := mem_singleton.mp hc
    cases hpatch
  · cases hpatches
    cases hpatch

theorem recordsFollow_relocatedOutput : RecordsFollow plainKinds (Safe plainKinds) relocatedOutput ∧
    Safe plainKinds relocatedOutput (addendPatch .complete true 4) :=
  ⟨recordsFollow_of_safe relocatedOutput_sound, safe_addendPatch⟩

/-- The output once a patch has moved the value, with the records as they were. -/
def patchedOutput (addend : Int64) : LinkedOutput :=
  { relocatedOutput with
    output := leBytes 4100 8
    inputs := Function.update relocatedOutput.inputs "612e6f".toList (objectVersion addend) }

/-- The addend goes from 0 to 4 and back.  The second patch starts from the
record of the link, finds its addend in the object, and leaves the output. -/
theorem addend_is_not_restored :
    ¬ RecordsFollow plainKinds (fun _ _ => True) relocatedOutput := by
  intro hfollow
  obtain ⟨_, hthere⟩ : ∃ progress, relocatedOutput.patchChangedInputs plainKinds
      (addendPatch .changedInputs false 4) = .ok (progress, patchedOutput 4) := ⟨_, rfl⟩
  obtain ⟨_, s, hback, hout, hinput⟩ : ∃ progress s, (patchedOutput 4).patchChangedInputs
      plainKinds (addendPatch .changedInputs false 0) = .ok (progress, s) ∧
        s.output = leBytes 4100 8 ∧ s.inputs "612e6f".toList = objectVersion 0 :=
    ⟨_, _, rfl, rfl, rfl⟩
  have hrun : Reached plainKinds (fun _ _ => True) relocatedOutput s :=
    (Reached.start.patch trivial hthere).patch trivial hback
  have hsame := hfollow.restored relocatedOutput s .start hrun _ (List.mem_singleton_self _) rfl ?_
  · rw [hout] at hsame
    exact absurd hsame (by decide)
  · rintro path (rfl | ⟨t, ht, _⟩)
    · exact hinput
    · cases ht

end LinkedOutput

end Sld.Incremental
