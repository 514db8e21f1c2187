/-
# `Symbols.ArchiveSelection` — which files are loaded

The slices that are split off for the objects lie one behind the other, a
work item owns its part of one slice, and a slice is taken once.  So each
step of a work item sees its slot as it was at the start, and what it asks
for does not depend on what runs beside it: the run is an instance of
`Sld.Requests`.

An object pulls in another through the references that `References` names.
The files loaded in the end are the least set that holds what is required
and is closed under references, for every order of the steps.
-/
import Mathlib.Data.List.Flatten
import Mathlib.Data.List.Range
import Sld.Order.Requests
import Sld.Symbols.Resolution

namespace Sld.Symbols

open List (filterMap_append flatMap_cons map_append map_cons map_map mem_append mem_append_left
  mem_append_right mem_cons mem_cons_of_mem mem_cons_self mem_filter mem_filterMap mem_flatMap
  mem_flatten mem_map mem_map_of_mem mem_singleton mem_singleton_self nodup_append range'
  range'_succ sum_cons)
open ResolutionResources (groups isDynamic object)
open ResolutionState (fail initial nextEffect setDefinition succeed)
open List.Sublist (append refl)

/-! ## The slices -/

def SymbolIdRange.slots (range : SymbolIdRange) : List SymbolId :=
  List.range' range.start range.len

section

variable {group : Nat}

variable {fd : FileDefinitions} {file : Nat} {next : SymbolId} {objects : List SequencedInputObject}

theorem mem_splitObjects (h : fd ∈ splitObjects group file next objects) :
    fd.fileId.group = group ∧ file ≤ fd.fileId.file ∧
      objects[fd.fileId.file - file]? = some fd.object := by
  induction objects generalizing file next with
  | nil => cases h
  | cons obj objects ih =>
    rcases mem_cons.mp h with rfl | h
    · exact ⟨rfl, Nat.le_refl _, by simp⟩
    · obtain ⟨hgroup, hfile, hobj⟩ := ih h
      have heq : fd.fileId.file - file = fd.fileId.file - (file + 1) + 1 := by omega
      exact ⟨hgroup, by omega, by rw [heq, List.getElem?_cons_succ]; exact hobj⟩

theorem exists_mem_splitObjects (group file : Nat) (next : SymbolId) {index : Nat}
    {obj : SequencedInputObject} (h : objects[index]? = some obj) :
    ∃ fd ∈ splitObjects group file next objects,
      fd.fileId = ⟨group, file + index⟩ ∧ fd.object = obj := by
  induction objects generalizing file next index with
  | nil => cases h
  | cons first objects ih =>
    cases index with
    | zero =>
      cases h
      exact ⟨_, mem_cons_self, rfl, rfl⟩
    | succ index =>
      obtain ⟨fd, hfd, hid, hobj⟩ := ih (file + 1) (next + first.symbolIdRange.len) h
      refine ⟨fd, mem_cons_of_mem _ hfd, ?_, hobj⟩
      rw [hid, Nat.add_assoc, Nat.add_comm 1]

theorem nodup_splitObjects (file : Nat) (next : SymbolId) (objects : List SequencedInputObject) :
    ((splitObjects group file next objects).map (·.fileId)).Nodup := by
  induction objects generalizing file next with
  | nil => exact List.nodup_nil
  | cons obj objects ih =>
    refine List.nodup_cons.mpr ⟨?_, ih _ _⟩
    intro hmem
    obtain ⟨fd, hfd, hid⟩ := mem_map.mp hmem
    have hle := (mem_splitObjects hfd).2.1
    rw [hid] at hle
    exact absurd hle (by simp)

theorem slots_splitObjects (file : Nat) (next : SymbolId) (objects : List SequencedInputObject) :
    (splitObjects group file next objects).flatMap (·.definitionsOut.slots) =
      range' next (objects.map fun obj => obj.symbolIdRange.len).sum := by
  induction objects generalizing file next with
  | nil => rfl
  | cons obj objects ih =>
    rw [splitObjects, flatMap_cons, ih, map_cons, sum_cons]
    exact List.range'_append_1

theorem definitionsOut_of_mem_splitObjects {objects : List ParsedInputObject}
    (h : fd ∈ splitObjects group file next (sequenceObjects next objects)) :
    fd.definitionsOut = fd.object.symbolIdRange ∧
      fd.object.symbolIdRange.len = fd.object.parsed.symbols.length := by
  induction objects generalizing file next with
  | nil => cases h
  | cons parsed objects ih =>
    rcases mem_cons.mp h with rfl | h
    · exact ⟨rfl, rfl⟩
    · exact ih h

theorem lengths_sequenceObjects (next : SymbolId) (objects : List ParsedInputObject) :
    ((sequenceObjects next objects).map fun obj => obj.symbolIdRange.len).sum =
      numSymbols objects := by
  induction objects generalizing next with
  | nil => rfl
  | cons parsed objects ih =>
    rw [sequenceObjects, map_cons, sum_cons, ih]
    rfl

end

section

variable {inputs : Inputs}

theorem splitGroups_append_scripts (group : Nat) (next next' : SymbolId)
    (groups : List (List ParsedInputObject)) (scripts : List (List InternalSymDefInfo)) :
    splitGroups group next (sequenceGroups next' groups ++
        if scripts = [] then [] else [.linkerScripts scripts]) =
      splitGroups group next (sequenceGroups next' groups) := by
  induction groups generalizing group next next' with
  | nil =>
    rw [sequenceGroups, List.nil_append]
    split
    · rfl
    · rfl
  | cons objects groups ih =>
    rw [sequenceGroups, List.cons_append, splitGroups, ih, splitGroups]

variable {groups : List (List ParsedInputObject)}

theorem mem_splitGroups {group : Nat} {next : SymbolId}
    {fd : FileDefinitions} (h : fd ∈ splitGroups group next (sequenceGroups next groups)) :
    group ≤ fd.fileId.group ∧
      (∃ objects, (sequenceGroups next groups)[fd.fileId.group - group]? = some (.objects objects) ∧
        objects[fd.fileId.file]? = some fd.object) ∧
      fd.definitionsOut = fd.object.symbolIdRange ∧
      fd.object.symbolIdRange.len = fd.object.parsed.symbols.length := by
  induction groups generalizing group next with
  | nil => cases h
  | cons objects groups ih =>
    rw [sequenceGroups, splitGroups, lengths_sequenceObjects] at h
    rcases mem_append.mp h with h | h
    · obtain ⟨hgroup, -, hobj⟩ := mem_splitObjects h
      refine ⟨Nat.le_of_eq hgroup.symm, ⟨sequenceObjects next objects, ?_, hobj⟩,
        definitionsOut_of_mem_splitObjects h⟩
      rw [hgroup, Nat.sub_self]
      rfl
    · obtain ⟨hle, ⟨os, hos, hobj⟩, hrange⟩ := ih h
      have heq : fd.fileId.group - group = fd.fileId.group - (group + 1) + 1 := by omega
      refine ⟨by omega, ⟨os, ?_, hobj⟩, hrange⟩
      rw [heq, sequenceGroups, List.getElem?_cons_succ]
      exact hos

theorem exists_mem_splitGroups (group : Nat) (next : SymbolId) {index file : Nat}
    {objects : List SequencedInputObject} {obj : SequencedInputObject}
    (hgroup : (sequenceGroups next groups)[index]? = some (.objects objects))
    (hobj : objects[file]? = some obj) :
    ∃ fd ∈ splitGroups group next (sequenceGroups next groups),
      fd.fileId = ⟨group + index, file⟩ ∧ fd.object = obj := by
  induction groups generalizing group next index with
  | nil => cases hgroup
  | cons first groups ih =>
    rw [sequenceGroups, splitGroups, lengths_sequenceObjects]
    cases index with
    | zero =>
      cases hgroup
      obtain ⟨fd, hfd, hid, hobj⟩ := exists_mem_splitObjects group 0 next hobj
      refine ⟨fd, mem_append_left _ hfd, ?_, hobj⟩
      rw [hid, Nat.zero_add, Nat.add_zero]
    | succ index =>
      obtain ⟨fd, hfd, hid, hobj⟩ := ih (group + 1) (next + numSymbols first) hgroup
      refine ⟨fd, mem_append_right _ hfd, ?_, hobj⟩
      rw [hid, Nat.add_assoc, Nat.add_comm 1]

theorem nodup_splitGroups (group : Nat) (next : SymbolId) (groups : List (List ParsedInputObject)) :
    ((splitGroups group next (sequenceGroups next groups)).map (·.fileId)).Nodup := by
  induction groups generalizing group next with
  | nil => exact List.nodup_nil
  | cons objects groups ih =>
    rw [sequenceGroups, splitGroups, lengths_sequenceObjects, map_append]
    refine nodup_append.mpr ⟨nodup_splitObjects _ _ _, ih _ _, ?_⟩
    intro f hf f' hf' heq
    obtain ⟨fd, hfd, rfl⟩ := mem_map.mp hf
    obtain ⟨fd', hfd', rfl⟩ := mem_map.mp hf'
    have hgroup := (mem_splitObjects hfd).1
    have hle := (mem_splitGroups hfd').1
    rw [← heq, hgroup] at hle
    exact absurd hle (by simp)

theorem slots_splitGroups (group : Nat) (next : SymbolId) (groups : List (List ParsedInputObject)) :
    (splitGroups group next (sequenceGroups next groups)).flatMap (·.definitionsOut.slots) =
      range' next (groups.map numSymbols).sum := by
  induction groups generalizing group next with
  | nil => rfl
  | cons objects groups ih =>
    rw [sequenceGroups, splitGroups, List.flatMap_append, slots_splitObjects,
      lengths_sequenceObjects, ih, map_cons, sum_cons]
    exact List.range'_append_1

end

section

variable (res : ResolutionResources)

def preludeRange : SymbolIdRange := ⟨0, res.inputs.preludeSymbols.length⟩

theorem fileDefinitions_eq : fileDefinitions res = splitGroups 1 res.inputs.preludeSymbols.length
      (sequenceGroups res.inputs.preludeSymbols.length res.inputs.objectGroups) := by
  rw [fileDefinitions, groups, Inputs.createGroups, splitGroups,
    splitGroups_append_scripts, Nat.zero_add, Nat.zero_add]

theorem groups_succ (index : Nat) (objects : List SequencedInputObject) :
    res.groups[index + 1]? = some (.objects objects) ↔
      (sequenceGroups res.inputs.preludeSymbols.length res.inputs.objectGroups)[index]? =
        some (.objects objects) := by
  rw [groups, Inputs.createGroups, List.getElem?_cons_succ,
    List.getElem?_append]
  by_cases hlen : index < (sequenceGroups res.inputs.preludeSymbols.length
      res.inputs.objectGroups).length
  · rw [if_pos hlen]
  · rw [if_neg hlen]
    have hnone := List.getElem?_eq_none (Nat.not_lt.mp hlen)
    rw [hnone]
    constructor
    · intro h
      split at h
      · simp at h
      · have hmem := List.mem_of_getElem? h
        simp at hmem
    · intro h
      cases h

theorem mem_fileDefinitions {fd : FileDefinitions} (h : fd ∈ fileDefinitions res) :
    res.object fd.fileId = some fd.object ∧ fd.definitionsOut = fd.object.symbolIdRange ∧
      fd.object.symbolIdRange.len = fd.object.parsed.symbols.length := by
  rw [fileDefinitions_eq] at h
  obtain ⟨hle, ⟨objects, hgroup, hobj⟩, hrange, hlen⟩ := mem_splitGroups h
  refine ⟨?_, hrange, hlen⟩
  obtain ⟨index, hindex⟩ : ∃ index, fd.fileId.group = index + 1 := ⟨fd.fileId.group - 1, by omega⟩
  rw [hindex, Nat.add_sub_cancel] at hgroup
  rw [object, hindex, (groups_succ res index objects).mpr hgroup]
  exact hobj

theorem exists_mem_fileDefinitions {fileId : FileId} {obj : SequencedInputObject}
    (h : res.object fileId = some obj) :
    ∃ fd ∈ fileDefinitions res, fd.fileId = fileId ∧ fd.object = obj := by
  rw [fileDefinitions_eq]
  obtain ⟨group, file⟩ := fileId
  rw [object] at h
  split at h
  · rename_i objects hgroup
    cases group with
    | zero => cases hgroup
    | succ index =>
      obtain ⟨fd, hfd, hid, hobj⟩ := exists_mem_splitGroups 1 _
        ((groups_succ res index objects).mp hgroup) h
      exact ⟨fd, hfd, by rw [hid, Nat.add_comm], hobj⟩
  · cases h

theorem nodup_fileIds : ((fileDefinitions res).map (·.fileId)).Nodup := by
  rw [fileDefinitions_eq]
  exact nodup_splitGroups _ _ _

theorem nodup_slots : ((preludeRange res).slots ++
    (fileDefinitions res).flatMap (·.definitionsOut.slots)).Nodup := by
  rw [fileDefinitions_eq, slots_splitGroups]
  have happend := @List.range'_append_1 0 res.inputs.preludeSymbols.length
    (res.inputs.objectGroups.map numSymbols).sum
  rw [Nat.zero_add] at happend
  rw [preludeRange, SymbolIdRange.slots, happend]
  exact List.nodup_range'

end

/-! ## The steps of the work items -/

abbrev WorkStep := LoadObjectSymbolsRequest × Nat

def WorkStep.slot (op : WorkStep) : Option SymbolId := op.1.slot op.2

/-- All steps of a work item. -/
def LoadObjectSymbolsRequest.allSteps (request : LoadObjectSymbolsRequest) : List WorkStep :=
  (List.range' 0 request.steps).map (request, ·)

theorem slots_allSteps (request : LoadObjectSymbolsRequest) :
    request.allSteps.filterMap WorkStep.slot = request.definitionsOut.slots := by
  rw [LoadObjectSymbolsRequest.allSteps, LoadObjectSymbolsRequest.steps, range'_succ,
    map_cons, List.filterMap_cons_none rfl, List.filterMap_map]
  have hsucc : range' (0 + 1) request.definitionsOut.len =
      (List.range request.definitionsOut.len).map (· + 1) := by
    rw [List.range'_eq_map_range]
    exact List.map_congr_left fun i _ => by omega
  rw [hsucc, List.filterMap_map, SymbolIdRange.slots, List.range'_eq_map_range]
  show List.filterMap (fun i => some (request.definitionsOut.start + i)) _ = _
  rw [List.filterMap_eq_map']

section

variable {size : Nat} {fileId : FileId} {offset : Nat} {range : SymbolIdRange}

variable {request : LoadObjectSymbolsRequest}

theorem fileId_of_mem_workItems
    (h : request ∈ workItems size fileId offset range) : request.fileId = fileId := by
  fun_induction workItems size fileId offset range with
  | case1 offset range hsize =>
    rw [mem_singleton.mp h]
  | case2 offset range hsize ih =>
    rcases mem_cons.mp h with rfl | h
    · rfl
    · exact ih h

theorem slots_workItems :
    (workItems size fileId offset range).flatMap (·.definitionsOut.slots) = range.slots := by
  fun_induction workItems size fileId offset range with
  | case1 offset range hsize => simp
  | case2 offset range hsize ih =>
    rw [flatMap_cons, ih]
    have hsplit := @List.range'_append_1 range.start size (range.len - size)
    rw [show size + (range.len - size) = range.len by omega] at hsplit
    exact hsplit

theorem index_of_mem_workItems (h : request ∈ workItems size fileId offset range) {k : Nat}
    (hk : k < request.definitionsOut.len) :
    ∃ i < range.len, request.symbolStartOffset + k = offset + i ∧
      request.definitionsOut.start + k = range.start + i ∧ k = i % size := by
  fun_induction workItems size fileId offset range with
  | case1 offset range hsize =>
    obtain rfl := mem_singleton.mp h
    refine ⟨k, hk, rfl, rfl, ?_⟩
    rcases hsize with hsize | hsize
    · exact (Nat.mod_eq_of_lt (Nat.lt_of_lt_of_le hk hsize)).symm
    · rw [hsize, Nat.mod_zero]
  | case2 offset range hsize ih =>
    obtain ⟨hlen, -⟩ := not_or.mp hsize
    rcases mem_cons.mp h with rfl | h
    · exact ⟨k, Nat.lt_trans hk (Nat.not_le.mp hlen), rfl, rfl, (Nat.mod_eq_of_lt hk).symm⟩
    · obtain ⟨i, hi, hoff, hslot, hmod⟩ := ih h
      refine ⟨i + size, ?_, ?_, ?_, ?_⟩
      · simp only at hi
        omega
      · rw [hoff, Nat.add_assoc, Nat.add_comm size]
      · rw [hslot, Nat.add_comm i, ← Nat.add_assoc]
      · rw [Nat.add_mod_right]
        exact hmod

theorem exists_mem_workItems {i : Nat} (hi : i < range.len) :
    ∃ request ∈ workItems size fileId offset range, ∃ k < request.definitionsOut.len,
      request.symbolStartOffset + k = offset + i ∧
      request.definitionsOut.start + k = range.start + i ∧ k = i % size := by
  fun_induction workItems size fileId offset range generalizing i with
  | case1 offset range hsize =>
    refine ⟨_, mem_singleton_self _, i, hi, rfl, rfl, ?_⟩
    rcases hsize with hsize | hsize
    · exact (Nat.mod_eq_of_lt (Nat.lt_of_lt_of_le hi hsize)).symm
    · rw [hsize, Nat.mod_zero]
  | case2 offset range hsize ih =>
    obtain ⟨hlen, hpos⟩ := not_or.mp hsize
    by_cases hfirst : i < size
    · exact ⟨_, mem_cons_self, i, hfirst, rfl, rfl, (Nat.mod_eq_of_lt hfirst).symm⟩
    · obtain ⟨request, hmem, k, hk, hoff, hslot, hmod⟩ := @ih (i - size) (by simp only; omega)
      have hback : size + (i - size) = i := Nat.add_sub_of_le (Nat.not_lt.mp hfirst)
      refine ⟨request, mem_cons_of_mem _ hmem, k, hk, ?_, ?_, ?_⟩
      · rw [hoff, Nat.add_assoc, hback]
      · rw [hslot]
        show range.start + size + (i - size) = range.start + i
        rw [Nat.add_assoc, hback]
      · rw [hmod]
        exact (Nat.mod_eq_sub_mod (Nat.not_lt.mp hfirst)).symm

end

/-! ## The run as a system of requests -/

section

variable (res : ResolutionResources)

/-- What a step asks for when its slot is as it was at the start. -/
def initialEffect (op : WorkStep) : Except String Effect :=
  stepEffect res op.1 op.2 ((op.slot.map res.symbolDefinitions).getD 0)

/-- The steps that a work item takes; it ends at the first error. -/
def stepsFrom (request : LoadObjectSymbolsRequest) : Nat → Nat → List WorkStep
  | _, 0 => []
  | step, n + 1 =>
    (request, step) ::
      if (initialEffect res (request, step)).isOk then stepsFrom request (step + 1) n else []

/-- The steps that a work item has still to take. -/
def remaining (item : Running) : List WorkStep :=
  stepsFrom res item.request item.next (item.request.steps - item.next)

def fileWork (fd : FileDefinitions) : List LoadObjectSymbolsRequest :=
  workItemsDo res fd.fileId fd.definitionsOut

/-- The slice that waits for a file at the start. -/
def waitingFile (fileId : FileId) : Option FileDefinitions :=
  (waitingFiles res).find? (·.fileId = fileId)

def requestOf (op : WorkStep) : Option FileId :=
  (initialEffect res op).toOption.bind (·.request)

def requests : Requests.System WorkStep FileId where
  start := (preludeWork res ++ (requiredFiles res).flatMap (fileWork res)).map fun request =>
    remaining res (.start request)
  tasks fileId := ((waitingFile res fileId).map (fileWork res)).getD [] |>.map fun request =>
    remaining res (.start request)
  request := requestOf res
  available fileId := (waitingFile res fileId).isSome

end

section

variable {res : ResolutionResources}

theorem waitingFile_eq_some {fileId : FileId} {fd : FileDefinitions} :
    waitingFile res fileId = some fd ↔
      fd ∈ fileDefinitions res ∧ res.waits fd.object = true ∧ fd.fileId = fileId := by
  constructor
  · intro h
    have hmem := List.mem_of_find?_eq_some h
    have hid := List.find?_some h
    obtain ⟨hfd, hwaits⟩ := mem_filter.mp hmem
    exact ⟨hfd, hwaits, by simpa using hid⟩
  · rintro ⟨hfd, hwaits, rfl⟩
    have hsome : (waitingFile res fd.fileId).isSome := by
      rw [waitingFile, List.find?_isSome]
      exact ⟨fd, mem_filter.mpr ⟨hfd, hwaits⟩, by simp⟩
    obtain ⟨fd', hfd'⟩ := Option.isSome_iff_exists.mp hsome
    have hmem := (mem_filter.mp (List.mem_of_find?_eq_some hfd')).1
    have hid : fd'.fileId = fd.fileId := by simpa using List.find?_some hfd'
    rw [hfd', List.inj_on_of_nodup_map (nodup_fileIds res) hmem hfd hid]

variable {request : LoadObjectSymbolsRequest}

theorem mem_stepsFrom {op : WorkStep} {step n : Nat}
    (h : op ∈ stepsFrom res request step n) : op.1 = request ∧ step ≤ op.2 ∧ op.2 < step + n := by
  induction n generalizing step with
  | zero => cases h
  | succ n ih =>
    rcases mem_cons.mp h with rfl | h
    · exact ⟨rfl, Nat.le_refl _, by simp⟩
    · split at h
      · obtain ⟨hreq, hlo, hhi⟩ := ih h
        exact ⟨hreq, by omega, by omega⟩
      · cases h

theorem stepsFrom_sublist (request : LoadObjectSymbolsRequest) (step n : Nat) :
    (stepsFrom res request step n).Sublist ((range' step n).map (request, ·)) := by
  induction n generalizing step with
  | zero => exact refl _
  | succ n ih =>
    refine List.Sublist.cons_cons _ ?_
    split
    · exact ih _
    · exact List.nil_sublist _

theorem stepsFrom_eq {step n : Nat}
    (h : ∀ op ∈ stepsFrom res request step n, (initialEffect res op).isOk = true) :
    stepsFrom res request step n = (range' step n).map (request, ·) := by
  induction n generalizing step with
  | zero => rfl
  | succ n ih =>
    have hok := h _ mem_cons_self
    rw [stepsFrom, if_pos hok, range'_succ, map_cons, ih]
    intro op hop
    refine h op (mem_cons_of_mem _ ?_)
    rw [if_pos hok]
    exact hop

variable {item : Running}

theorem remaining_of_lt (h : item.next < item.request.steps) :
    remaining res item = (item.request, item.next) ::
      if (initialEffect res (item.request, item.next)).isOk then
        remaining res { item with next := item.next + 1 }
      else [] := by
  obtain ⟨n, hn⟩ : ∃ n, item.request.steps - item.next = n + 1 :=
    ⟨item.request.steps - item.next - 1, by omega⟩
  have hn' : item.request.steps - (item.next + 1) = n := by omega
  rw [remaining, hn, stepsFrom]
  simp only [remaining, hn']

theorem remaining_of_le (h : item.request.steps ≤ item.next) : remaining res item = [] := by
  rw [remaining, Nat.sub_eq_zero_of_le h, stepsFrom]

/-! ### No slot twice -/

theorem slots_remaining_sublist (work : List LoadObjectSymbolsRequest) :
    ((work.map fun request => remaining res (.start request)).flatten.filterMap
        WorkStep.slot).Sublist (work.flatMap (·.definitionsOut.slots)) := by
  induction work with
  | nil => exact refl _
  | cons request work ih =>
    rw [map_cons, List.flatten_cons, filterMap_append, flatMap_cons]
    refine append ?_ ih
    rw [← slots_allSteps]
    exact (stepsFrom_sublist request 0 request.steps).filterMap _

theorem slots_fileWork (fd : FileDefinitions) :
    (fileWork res fd).flatMap (·.definitionsOut.slots) = fd.definitionsOut.slots := by
  rw [fileWork, workItemsDo]
  split
  · exact slots_workItems
  · exact slots_workItems

theorem slots_preludeWork :
    (preludeWork res).flatMap (·.definitionsOut.slots) = (preludeRange res).slots := by
  exact slots_workItems

/-- The files whose steps are among the operations. -/
def takenFiles (res : ResolutionResources) (taken : List FileId) : List FileDefinitions :=
  requiredFiles res ++ taken.filterMap (waitingFile res)

theorem slots_operations_sublist (taken : List FileId) :
    (((requests res).operations taken).filterMap WorkStep.slot).Sublist ((preludeRange res).slots ++
        (takenFiles res taken).flatMap (·.definitionsOut.slots)) := by
  rw [Requests.System.operations, filterMap_append, takenFiles, List.flatMap_append,
    ← List.append_assoc]
  refine append ?_ ?_
  · have hslots : (preludeWork res ++ (requiredFiles res).flatMap (fileWork res)).flatMap
        (·.definitionsOut.slots) =
        (preludeRange res).slots ++ (requiredFiles res).flatMap (·.definitionsOut.slots) := by
      rw [List.flatMap_append, slots_preludeWork, List.flatMap_assoc]
      congr 1
      exact List.flatMap_congr fun fd _ => slots_fileWork fd
    rw [← hslots]
    exact slots_remaining_sublist _
  · induction taken with
    | nil => exact refl _
    | cons fileId taken ih =>
      rw [flatMap_cons, filterMap_append]
      cases hfile : waitingFile res fileId with
      | none =>
        have htasks : (requests res).tasks fileId = [] := by
          simp [requests, hfile]
        rw [htasks, List.filterMap_cons_none hfile]
        exact ih
      | some fd =>
        have htasks : (requests res).tasks fileId =
            (fileWork res fd).map fun request => remaining res (.start request) := by
          simp [requests, hfile]
        rw [htasks, List.filterMap_cons_some hfile, flatMap_cons]
        refine append ?_ ih
        rw [← @slots_fileWork res fd]
        exact slots_remaining_sublist _

theorem takenFiles_subperm {taken : List FileId} (hnodup : taken.Nodup) :
    (takenFiles res taken).Subperm (fileDefinitions res) := by
  have hfiles := List.Nodup.of_map _ (nodup_fileIds res)
  refine List.subperm_of_subset ?_ ?_
  · refine nodup_append.mpr ⟨hfiles.filter _, ?_, ?_⟩
    · refine hnodup.filterMap ?_
      intro f f' fd hfd hfd'
      rw [Option.mem_def, waitingFile_eq_some] at hfd hfd'
      exact hfd.2.2.symm.trans hfd'.2.2
    · intro fd hfd fd' hfd' heq
      obtain ⟨f, -, hf⟩ := mem_filterMap.mp hfd'
      have hwaits := (waitingFile_eq_some.mp hf).2.1
      have hrequired := (mem_filter.mp hfd).2
      rw [heq, hwaits] at hrequired
      cases hrequired
  · intro fd hfd
    rcases mem_append.mp hfd with hfd | hfd
    · exact (mem_filter.mp hfd).1
    · obtain ⟨f, -, hf⟩ := mem_filterMap.mp hfd
      exact (waitingFile_eq_some.mp hf).1

theorem nodup_takenSlots {taken : List FileId} (hnodup : taken.Nodup) :
    ((preludeRange res).slots ++ (takenFiles res taken).flatMap (·.definitionsOut.slots)).Nodup := by
  obtain ⟨files, hperm, hsub⟩ := @takenFiles_subperm res _ hnodup
  have hall := nodup_slots res
  have hfiles : ((preludeRange res).slots ++ files.flatMap (·.definitionsOut.slots)).Nodup :=
    hall.sublist ((refl _).append (hsub.flatMap _))
  exact ((hperm.flatMap_right _).append_left _).nodup_iff.mp hfiles

end

/-! ### Each step of the run is one of the system -/

/-- The flags after some steps, in their order. -/
def flagsAfter (res : ResolutionResources) (flags : SymbolId → ValueFlags) (log : List WorkStep) :
    SymbolId → ValueFlags :=
  log.foldl (fun flags op =>
    ResolutionState.applyVisibility flags ((initialEffect res op).toOption.bind (·.visibility)))
    flags

def undefinedAfter (res : ResolutionResources) (log : List WorkStep) : List UndefinedSymbol :=
  log.filterMap fun op => (initialEffect res op).toOption.bind (·.undefined)

/-- What the tables hold, read off the steps that were taken. -/
structure ResolutionState.Agrees (res : ResolutionResources) (flags : SymbolId → ValueFlags)
    (s : ResolutionState) (log : List WorkStep) : Prop where
  resolved : s.resolved = log.filterMap WorkStep.slot
  untouched : ∀ id, id ∉ s.resolved → s.definitions id = res.symbolDefinitions id
  written : ∀ op ∈ log, ∀ slot effect, op.slot = some slot → initialEffect res op = .ok effect →
    s.definitions slot = effect.definition.getD (res.symbolDefinitions slot)
  flags : s.flags = flagsAfter res flags log
  undefinedSymbols : s.undefinedSymbols = undefinedAfter res log
  error : s.error = none ↔ ∀ op ∈ log, (initialEffect res op).isOk = true

structure ResolutionState.Follows (res : ResolutionResources) (flags : SymbolId → ValueFlags)
    (s : ResolutionState) (w : Requests.State WorkStep FileId) : Prop where
  reachable : (requests res).Reachable w
  running : w.running = s.running.map (remaining res)
  loaded : s.loaded = (requiredFiles res).map (·.fileId) ++ w.taken
  definitionsPerFile : ∀ fileId, s.definitionsPerFile fileId =
    if fileId ∈ w.taken then none else (waitingFile res fileId).map (·.definitionsOut)
  agrees : s.Agrees res flags w.log

section

variable {res : ResolutionResources} {flags : SymbolId → ValueFlags} {s : ResolutionState}
  {w : Requests.State WorkStep FileId}

theorem follows_initial :
    (initial res flags).Follows res flags (requests res).initial where
  reachable := .refl
  running := by
    simp only [initial, map_map]
    rfl
  loaded := (List.append_nil _).symm
  definitionsPerFile fileId := by
    rfl
  agrees :=
    { resolved := rfl
      untouched := fun _ _ => rfl
      written := fun op hop => by cases hop
      flags := rfl
      undefinedSymbols := rfl
      error := ⟨fun _ op hop => (by cases hop), fun _ => rfl⟩ }

theorem ResolutionState.Follows.nodup (h : s.Follows res flags w) :
    ((w.log ++ w.running.flatten).filterMap WorkStep.slot).Nodup := by
  have hinv := Requests.inv_of_reachable h.reachable
  have hslots := (@nodup_takenSlots res _ hinv.nodup).sublist (slots_operations_sublist w.taken)
  exact (hinv.log_perm.filterMap _).nodup_iff.mpr hslots

section

variable {before after : List Running} {item : Running}

variable {slot : SymbolId}

theorem ResolutionState.Follows.slot_fresh (h : s.Follows res flags w)
    (hrunning : s.running = before ++ item :: after) (hnext : item.next < item.request.steps)
    (hslot : item.request.slot item.next = some slot) : slot ∉ s.resolved := by
  intro hmem
  have hnodup := h.nodup
  rw [filterMap_append] at hnodup
  rw [h.agrees.resolved] at hmem
  refine (nodup_append.mp hnodup).2.2 slot hmem slot ?_ rfl
  refine mem_filterMap.mpr ⟨(item.request, item.next), ?_, hslot⟩
  refine mem_flatten.mpr ⟨remaining res item, ?_, ?_⟩
  · rw [h.running, hrunning]
    exact mem_map_of_mem (mem_append_right _ mem_cons_self)
  · rw [remaining_of_lt hnext]
    exact mem_cons_self

theorem ResolutionState.Follows.effect_eq (h : s.Follows res flags w)
    (hrunning : s.running = before ++ item :: after) (hnext : item.next < item.request.steps) :
    s.nextEffect res item = initialEffect res (item.request, item.next) := by
  rw [nextEffect, initialEffect, WorkStep.slot]
  cases hslot : item.request.slot item.next with
  | none => rfl
  | some slot =>
    have huntouched := h.agrees.untouched slot (h.slot_fresh hrunning hnext hslot)
    simp only [Option.map_some, huntouched]

variable {definition : Option SymbolId} {definitions : SymbolId → SymbolId}

theorem setDefinition_of_ne {slot : Option SymbolId} {id : SymbolId} (h : slot ≠ some id) :
    setDefinition definitions slot definition id = definitions id := by
  unfold setDefinition
  split
  · exact Function.update_of_ne (fun heq => h (by rw [heq])) _ _
  · rfl

theorem setDefinition_self : setDefinition definitions (some slot) definition slot =
      definition.getD (definitions slot) := by
  cases definition with
  | none => rfl
  | some id => exact Function.update_self _ _ _

theorem filterMap_slot_append (log : List WorkStep) (op : WorkStep) :
    (log ++ [op]).filterMap WorkStep.slot = log.filterMap WorkStep.slot ++ op.slot.toList := by
  rw [filterMap_append, List.filterMap_cons]
  cases op.slot with
  | none => rfl
  | some slot => rfl

theorem flagsAfter_append (log : List WorkStep) (op : WorkStep) :
    flagsAfter res flags (log ++ [op]) = ResolutionState.applyVisibility (flagsAfter res flags log)
        ((initialEffect res op).toOption.bind (·.visibility)) := by
  rw [flagsAfter, List.foldl_append]
  rfl

theorem undefinedAfter_append (log : List WorkStep) (op : WorkStep) :
    undefinedAfter res (log ++ [op]) = undefinedAfter res log ++
        ((initialEffect res op).toOption.bind (·.undefined)).toList := by
  rw [undefinedAfter, filterMap_append, List.filterMap_cons]
  cases (initialEffect res op).toOption.bind (·.undefined) with
  | none => rfl
  | some undefined => rfl

variable {effect : Effect}

section

variable (h : s.Follows res flags w)

include h

theorem ResolutionState.Follows.agrees_succeed (hrunning : s.running = before ++ item :: after)
    (hnext : item.next < item.request.steps)
    (heffect : initialEffect res (item.request, item.next) = .ok effect) :
    (s.succeed before after item effect).Agrees res flags
      (w.log ++ [(item.request, item.next)]) where
  resolved := by
    rw [filterMap_slot_append, ← h.agrees.resolved]
    rfl
  untouched id hid := by
    obtain ⟨hold, hnew⟩ := not_or.mp fun hor => hid (mem_append.mpr hor)
    refine (setDefinition_of_ne fun heq => hnew ?_).trans (h.agrees.untouched id hold)
    rw [heq]
    exact mem_singleton_self id
  written op hop slot effect' hslot heffect' := by
    show setDefinition s.definitions (item.request.slot item.next) effect.definition slot = _
    rcases mem_append.mp hop with hop | hop
    · rw [setDefinition_of_ne]
      · exact h.agrees.written op hop slot effect' hslot heffect'
      · intro heq
        refine h.slot_fresh hrunning hnext heq ?_
        rw [h.agrees.resolved]
        exact mem_filterMap.mpr ⟨op, hop, hslot⟩
    · obtain rfl := mem_singleton.mp hop
      rw [heffect] at heffect'
      cases heffect'
      rw [show item.request.slot item.next = some slot from hslot, setDefinition_self,
        h.agrees.untouched slot (h.slot_fresh hrunning hnext hslot)]
  flags := by
    rw [flagsAfter_append, ← h.agrees.flags, heffect]
    rfl
  undefinedSymbols := by
    rw [undefinedAfter_append, ← h.agrees.undefinedSymbols, heffect]
    rfl
  error := by
    refine h.agrees.error.trans ⟨fun hlog op hop => ?_, fun hlog op hop =>
      hlog op (mem_append_left _ hop)⟩
    rcases mem_append.mp hop with hop | hop
    · exact hlog op hop
    · rw [mem_singleton.mp hop, heffect]
      rfl

variable {e : String}

theorem ResolutionState.Follows.agrees_fail
    (heffect : initialEffect res (item.request, item.next) = .error e) :
    (s.fail before after item e).Agrees res flags (w.log ++ [(item.request, item.next)]) where
  resolved := by
    rw [filterMap_slot_append, ← h.agrees.resolved]
    rfl
  untouched id hid := h.agrees.untouched id fun hold => hid (mem_append_left _ hold)
  written op hop slot effect hslot heffect' := by
    rcases mem_append.mp hop with hop | hop
    · exact h.agrees.written op hop slot effect hslot heffect'
    · obtain rfl := mem_singleton.mp hop
      rw [heffect] at heffect'
      cases heffect'
  flags := by
    rw [flagsAfter_append, ← h.agrees.flags, heffect]
    rfl
  undefinedSymbols := by
    rw [undefinedAfter_append, ← h.agrees.undefinedSymbols, heffect]
    exact (List.append_nil _).symm
  error := by
    constructor
    · intro hnone
      have hsome : (s.error <|> some e) = none := hnone
      cases herror : s.error with
      | none => rw [herror] at hsome; cases hsome
      | some e' => rw [herror] at hsome; cases hsome
    · intro hlog
      have hok := hlog _ (mem_append_right _ (mem_singleton_self _))
      rw [heffect] at hok
      cases hok

theorem ResolutionState.Follows.grant_eq (op : WorkStep) :
    (requests res).grant w.taken op =
      (requestOf res op).filter fun fileId => (s.definitionsPerFile fileId).isSome := by
  rw [Requests.System.grant]
  show (requestOf res op).filter _ = _
  congr 1
  funext fileId
  rw [h.definitionsPerFile fileId]
  show ((waitingFile res fileId).isSome && !decide (fileId ∈ w.taken)) = _
  by_cases hmem : fileId ∈ w.taken
  · simp [hmem]
  · simp [hmem]

theorem ResolutionState.Follows.step (hrunning : s.running = before ++ item :: after)
    (hnext : item.next < item.request.steps) :
    (requests res).Step w ((requests res).perform (before.map (remaining res) ++
          (if (initialEffect res (item.request, item.next)).isOk then
            remaining res { item with next := item.next + 1 } else []) ::
          after.map (remaining res))
        w.taken w.log (item.request, item.next)) := by
  have hmap := h.running
  rw [hrunning, map_append, map_cons, remaining_of_lt hnext] at hmap
  obtain ⟨running, taken, log⟩ := w
  cases hmap
  exact .perform _ _ _ _ taken log

theorem ResolutionState.Follows.work_error (hrunning : s.running = before ++ item :: after)
    (hnext : item.next < item.request.steps)
    (heffect : initialEffect res (item.request, item.next) = .error e) :
    ∃ w', (requests res).Step w w' ∧ (s.fail before after item e).Follows res flags w' := by
  have hgrant : (requests res).grant w.taken (item.request, item.next) = none := by
    rw [h.grant_eq, requestOf, heffect]
    rfl
  have hstep := h.step hrunning hnext
  rw [Requests.System.perform_of_none _ hgrant, heffect] at hstep
  refine ⟨_, hstep, h.reachable.tail hstep, ?_, h.loaded, h.definitionsPerFile,
    h.agrees_fail heffect⟩
  have hdone : remaining res { item with next := item.request.steps } = [] :=
    remaining_of_le (Nat.le_refl _)
  rw [fail, map_append, map_cons, hdone]
  rfl

theorem ResolutionState.Follows.work_ok (hrunning : s.running = before ++ item :: after)
    (hnext : item.next < item.request.steps)
    (heffect : initialEffect res (item.request, item.next) = .ok effect) :
    ∃ w', (requests res).Step w w' ∧
      ((s.succeed before after item effect).applyRequest res effect.request).Follows
        res flags w' := by
  have hagrees := h.agrees_succeed hrunning hnext heffect
  have hstep := h.step hrunning hnext
  rw [heffect] at hstep
  have hgrant := h.grant_eq (item.request, item.next)
  rw [requestOf, heffect] at hgrant
  cases hg : (requests res).grant w.taken (item.request, item.next) with
  | none =>
    rw [hg] at hgrant
    rw [Requests.System.perform_of_none _ hg] at hstep
    have hsame : (s.succeed before after item effect).applyRequest res effect.request =
        s.succeed before after item effect := by
      cases hr : effect.request with
      | none => rfl
      | some fileId =>
        have hnone : s.definitionsPerFile fileId = none := by
          cases hd : s.definitionsPerFile fileId with
          | none => rfl
          | some range =>
            have hfilter : none = effect.request.filter fun fileId =>
              (s.definitionsPerFile fileId).isSome := hgrant
            rw [hr, Option.filter_some, hd] at hfilter
            cases hfilter
        have hnone' : (s.succeed before after item effect).definitionsPerFile fileId = none := hnone
        rw [applyRequest, tryRequestFileId, hnone']
    rw [hsame]
    refine ⟨_, hstep, h.reachable.tail hstep, ?_, h.loaded, h.definitionsPerFile, hagrees⟩
    rw [succeed, map_append, map_cons]
    rfl
  | some fileId =>
    rw [hg] at hgrant
    rw [Requests.System.perform_of_some _ hg] at hstep
    obtain ⟨hr, -⟩ := Option.filter_eq_some_iff.mp hgrant.symm
    obtain ⟨-, havailable, hnot⟩ := Requests.System.grant_eq_some.mp hg
    obtain ⟨fd, hfd⟩ := Option.isSome_iff_exists.mp havailable
    have hper : (s.succeed before after item effect).definitionsPerFile fileId =
        some fd.definitionsOut := by
      show s.definitionsPerFile fileId = _
      rw [h.definitionsPerFile fileId, if_neg hnot, hfd]
      rfl
    rw [show effect.request = some fileId from hr, applyRequest, tryRequestFileId, hper]
    refine ⟨_, hstep, h.reachable.tail hstep, ?_, ?_, ?_, ?_⟩
    · have hid := (waitingFile_eq_some.mp hfd).2.2
      simp only [requests, hfd, Option.map_some, Option.getD_some, succeed, map_append,
        map_cons, map_map]
      rw [fileWork, hid]
      rfl
    · show s.loaded ++ [fileId] = _
      rw [h.loaded, List.append_assoc]
    · intro fileId'
      show Function.update s.definitionsPerFile fileId none fileId' = _
      by_cases heq : fileId' = fileId
      · subst heq
        rw [Function.update_self, if_pos (mem_append_right _ (mem_singleton_self _))]
      · rw [Function.update_of_ne heq, h.definitionsPerFile fileId']
        have hmem : fileId' ∈ w.taken ++ [fileId] ↔ fileId' ∈ w.taken := by simp [heq]
        simp only [hmem]
    · exact ⟨hagrees.resolved, hagrees.untouched, hagrees.written, hagrees.flags,
        hagrees.undefinedSymbols, hagrees.error⟩

theorem ResolutionState.Follows.work (hrunning : s.running = before ++ item :: after)
    (hnext : item.next < item.request.steps) :
    ∃ w', (requests res).Step w w' ∧ (s.work res before after item).Follows res flags w' := by
  rw [ResolutionState.work, h.effect_eq hrunning hnext]
  cases heffect : initialEffect res (item.request, item.next) with
  | error e => exact h.work_error hrunning hnext heffect
  | ok effect => exact h.work_ok hrunning hnext heffect

end

end

theorem exists_follows
    (h : Relation.ReflTransGen (ResolutionState.Step res) (.initial res flags) s) :
    ∃ w, s.Follows res flags w := by
  induction h with
  | refl => exact ⟨_, follows_initial⟩
  | tail _ hstep ih =>
    obtain ⟨w, hw⟩ := ih
    cases hstep with
    | work hrunning hnext =>
      obtain ⟨w', -, hw'⟩ := hw.work hrunning hnext
      exact ⟨w', hw'⟩

variable {fileId : FileId}

theorem waitingFile_mem (h : (requests res).available fileId = true) :
    fileId ∈ (waitingFiles res).map (·.fileId) := by
  obtain ⟨fd, hfd⟩ := Option.isSome_iff_exists.mp h
  obtain ⟨hmem, hwaits, rfl⟩ := waitingFile_eq_some.mp hfd
  exact mem_map_of_mem (mem_filter.mpr ⟨hmem, hwaits⟩)

/-- The number of steps that the work items of all files have. -/
def totalSteps (res : ResolutionResources) : Nat :=
  ((requests res).operations ((waitingFiles res).map (·.fileId))).length

theorem ResolutionState.Follows.exists_step (h : s.Follows res flags w) (hs : ¬ s.Complete) :
    ∃ s' w', ResolutionState.Step res s s' ∧ s'.Follows res flags w' ∧
      w'.log.length = w.log.length + 1 ∧ w'.log.length ≤ totalSteps res := by
  unfold ResolutionState.Complete at hs
  push Not at hs
  obtain ⟨item, hitem, hnext⟩ := hs
  obtain ⟨before, after, hrunning⟩ := List.append_of_mem hitem
  obtain ⟨w', hstep, hw'⟩ := h.work hrunning hnext
  exact ⟨_, w', .work hrunning hnext, hw', Requests.length_log_of_step hstep,
    Requests.length_log_le (fun fileId => waitingFile_mem)
      (Requests.inv_of_reachable hw'.reachable)⟩

/-- The work items come to an end.  The induction is on the steps that are
left. -/
theorem ResolutionState.Follows.exists_complete (n : Nat) (h : s.Follows res flags w)
    (hn : totalSteps res - w.log.length ≤ n) :
    ∃ s', Relation.ReflTransGen (ResolutionState.Step res) s s' ∧ s'.Complete := by
  induction n generalizing s w with
  | zero =>
    by_cases hs : s.Complete
    · exact ⟨s, .refl, hs⟩
    · obtain ⟨s', w', -, -, hlen, hle⟩ := h.exists_step hs
      omega
  | succ n ih =>
    by_cases hs : s.Complete
    · exact ⟨s, .refl, hs⟩
    · obtain ⟨s', w', hstep, hw', hlen, hle⟩ := h.exists_step hs
      obtain ⟨s'', hrun, hdone⟩ := ih hw' (by omega)
      exact ⟨s'', .head hstep hrun, hdone⟩

/-- Every symbol table can be read. -/
def Readable (res : ResolutionResources) : Prop :=
  ∀ fileId obj, res.object fileId = some obj → obj.parsed.verneedTable.isOk = true ∧
    ∀ symbol ∈ obj.parsed.symbols, symbol.name.isOk = true

theorem resolveSymbolAt_isOk {obj : SequencedInputObject}
    (htable : obj.parsed.verneedTable.isOk = true)
    (hnames : ∀ symbol ∈ obj.parsed.symbols, symbol.name.isOk = true) (offset k : Nat)
    (definition : SymbolId) :
    (resolveSymbolAt res fileId obj offset k definition).isOk = true := by
  unfold resolveSymbolAt
  split
  · rfl
  · rename_i symbol hsym
    have hname := hnames symbol (List.mem_of_getElem? hsym)
    split
    · rfl
    · cases ht : obj.parsed.verneedTable with
      | error e => rw [ht] at htable; cases htable
      | ok table =>
        cases hn : symbol.name with
        | error e => rw [hn] at hname; cases hname
        | ok nameBytes => rfl

theorem initialEffect_isOk (h : Readable res) (op : WorkStep) :
    (initialEffect res op).isOk = true := by
  obtain ⟨request, k⟩ := op
  cases hobj : res.object request.fileId with
  | some obj =>
    obtain ⟨htable, hnames⟩ := h _ _ hobj
    rw [object] at hobj
    unfold initialEffect stepEffect
    split at hobj
    · rename_i objects hgroup
      simp only [hgroup, hobj]
      cases k with
      | zero =>
        show (obj.parsed.verneedTable.map fun _ => ({} : Effect)).isOk = true
        cases ht : obj.parsed.verneedTable with
        | error e => rw [ht] at htable; cases htable
        | ok table => rfl
      | succ k => exact resolveSymbolAt_isOk htable hnames _ _ _
    · cases hobj
  | none =>
    rw [object] at hobj
    unfold initialEffect stepEffect
    split at hobj
    · rename_i objects hgroup
      simp only [hgroup, hobj]
      rfl
    · rename_i hgroup
      cases hg : res.groups[request.fileId.group]? with
      | none => rfl
      | some group =>
        cases group with
        | objects objects => exact absurd hg (hgroup objects)
        | prelude symbolDefinitions => cases k <;> rfl
        | linkerScripts scripts => rfl

theorem exists_resolution (hobjects : fileDefinitions res ≠ []) (h : Readable res) :
    ∃ s, ResolveSymbolsAndSelectArchiveEntries res flags s := by
  obtain ⟨s, hrun, hdone⟩ := (@follows_initial res flags).exists_complete
    (totalSteps res) (Nat.sub_le _ _)
  obtain ⟨w, hw⟩ := exists_follows hrun
  exact ⟨s, hobjects, hrun, hdone, hw.agrees.error.mpr fun op _ => initialEffect_isOk h op⟩

end

/-! ## When all work is done -/

section

variable {res : ResolutionResources} {flags : SymbolId → ValueFlags} {s : ResolutionState}
  {w : Requests.State WorkStep FileId}

/-- The work items of the prelude and of the files that were loaded. -/
def allWork (res : ResolutionResources) (taken : List FileId) : List LoadObjectSymbolsRequest :=
  preludeWork res ++ (takenFiles res taken).flatMap (fileWork res)

variable {taken : List FileId}

theorem mem_allWork {request : LoadObjectSymbolsRequest} : request ∈ allWork res taken ↔
      request ∈ preludeWork res ∨ ∃ fd ∈ takenFiles res taken, request ∈ fileWork res fd := by
  rw [allWork, mem_append, mem_flatMap]

theorem mem_operations {op : WorkStep} : op ∈ (requests res).operations taken ↔
      ∃ request ∈ allWork res taken, op ∈ remaining res (.start request) := by
  rw [Requests.System.mem_operations]
  simp only [mem_allWork, takenFiles, mem_append, mem_filterMap]
  constructor
  · rintro (hstart | ⟨fileId, htaken, htask⟩)
    · obtain ⟨task, htask, hop⟩ := mem_flatten.mp hstart
      obtain ⟨request, hrequest, rfl⟩ := mem_map.mp htask
      rcases mem_append.mp hrequest with hrequest | hrequest
      · exact ⟨request, .inl hrequest, hop⟩
      · obtain ⟨fd, hfd, hrequest⟩ := mem_flatMap.mp hrequest
        exact ⟨request, .inr ⟨fd, .inl hfd, hrequest⟩, hop⟩
    · obtain ⟨task, htask, hop⟩ := mem_flatten.mp htask
      obtain ⟨request, hrequest, rfl⟩ := mem_map.mp htask
      cases hfile : waitingFile res fileId with
      | none => rw [hfile] at hrequest; cases hrequest
      | some fd =>
        rw [hfile] at hrequest
        exact ⟨request, .inr ⟨fd, .inr ⟨fileId, htaken, hfile⟩, hrequest⟩, hop⟩
  · rintro ⟨request, hprelude | ⟨fd, hrequired | ⟨fileId, htaken, hfile⟩, hrequest⟩, hop⟩
    · exact .inl (mem_flatten.mpr ⟨_, mem_map_of_mem (mem_append_left _ hprelude), hop⟩)
    · exact .inl (mem_flatten.mpr ⟨_, mem_map_of_mem
        (mem_append_right _ (mem_flatMap.mpr ⟨fd, hrequired, hrequest⟩)), hop⟩)
    · refine .inr ⟨fileId, htaken, mem_flatten.mpr ⟨remaining res (.start request), ?_, hop⟩⟩
      refine mem_map_of_mem (f := fun request => remaining res (.start request)) ?_
      rw [hfile]
      exact hrequest

/-- The state in which a run without errors ends. -/
structure ResolutionState.Ends (res : ResolutionResources) (flags : SymbolId → ValueFlags)
    (s : ResolutionState) (w : Requests.State WorkStep FileId) : Prop where
  follows : s.Follows res flags w
  complete : w.Complete
  error : s.error = none

theorem ResolveSymbolsAndSelectArchiveEntries.exists_ends
    (h : ResolveSymbolsAndSelectArchiveEntries res flags s) : ∃ w, s.Ends res flags w := by
  obtain ⟨w, hw⟩ := exists_follows h.run
  refine ⟨w, hw, ?_, h.error⟩
  refine List.flatten_eq_nil_iff.mpr ?_
  intro task htask
  rw [hw.running] at htask
  obtain ⟨item, hitem, rfl⟩ := mem_map.mp htask
  exact remaining_of_le (h.complete item hitem)

namespace ResolutionState.Ends

variable (h : s.Ends res flags w)

include h

theorem log_perm : w.log.Perm ((requests res).operations w.taken) :=
  Requests.log_perm (Requests.inv_of_reachable h.follows.reachable) h.complete

variable {op : WorkStep}

theorem mem_log : op ∈ w.log ↔ op.1 ∈ allWork res w.taken ∧ op.2 < op.1.steps := by
  rw [h.log_perm.mem_iff, mem_operations]
  constructor
  · rintro ⟨request, hrequest, hop⟩
    obtain ⟨rfl, -, hlt⟩ := mem_stepsFrom hop
    refine ⟨hrequest, ?_⟩
    simp only [Running.start] at hlt
    omega
  · rintro ⟨hrequest, hlt⟩
    refine ⟨op.1, hrequest, ?_⟩
    have hall : remaining res (.start op.1) = (range' 0 op.1.steps).map (op.1, ·) := by
      refine stepsFrom_eq fun o ho => h.follows.agrees.error.mp h.error o ?_
      exact h.log_perm.mem_iff.mpr (mem_operations.mpr ⟨op.1, hrequest, ho⟩)
    rw [hall]
    exact mem_map.mpr ⟨op.2, List.mem_range'_1.mpr ⟨Nat.zero_le _, by omega⟩, rfl⟩

theorem resolved_nodup : s.resolved.Nodup := by
  have hnodup := h.follows.nodup
  rw [filterMap_append, ← h.follows.agrees.resolved] at hnodup
  exact (nodup_append.mp hnodup).1

theorem mem_resolved {id : SymbolId} :
    id ∈ s.resolved ↔ ∃ request ∈ allWork res w.taken, id ∈ request.definitionsOut.slots := by
  rw [h.follows.agrees.resolved, mem_filterMap]
  constructor
  · rintro ⟨op, hop, hslot⟩
    obtain ⟨hrequest, hlt⟩ := h.mem_log.mp hop
    refine ⟨op.1, hrequest, ?_⟩
    rw [← slots_allSteps]
    exact mem_filterMap.mpr ⟨op, mem_map.mpr ⟨op.2,
      List.mem_range'_1.mpr ⟨Nat.zero_le _, by omega⟩, rfl⟩, hslot⟩
  · rintro ⟨request, hrequest, hid⟩
    rw [← slots_allSteps] at hid
    obtain ⟨op, hop, hslot⟩ := mem_filterMap.mp hid
    obtain ⟨k, hk, rfl⟩ := mem_map.mp hop
    refine ⟨(request, k), h.mem_log.mpr ⟨hrequest, ?_⟩, hslot⟩
    have hlt := (List.mem_range'_1.mp hk).2
    show k < request.steps
    omega

variable {fileId : FileId}

theorem mem_loaded : fileId ∈ s.loaded ↔ ∃ fd ∈ takenFiles res w.taken, fd.fileId = fileId := by
  have hinv := Requests.inv_of_reachable h.follows.reachable
  rw [h.follows.loaded, mem_append, mem_map]
  simp only [takenFiles, mem_append, mem_filterMap]
  constructor
  · rintro (⟨fd, hfd, hid⟩ | htaken)
    · exact ⟨fd, .inl hfd, hid⟩
    · obtain ⟨fd, hfd⟩ := Option.isSome_iff_exists.mp (hinv.available fileId htaken)
      exact ⟨fd, .inr ⟨fileId, htaken, hfd⟩, (waitingFile_eq_some.mp hfd).2.2⟩
  · rintro ⟨fd, hfd | ⟨fileId', htaken, hfile⟩, hid⟩
    · exact .inl ⟨fd, hfd, hid⟩
    · rw [← hid, (waitingFile_eq_some.mp hfile).2.2]
      exact .inr htaken

theorem loaded_nodup : s.loaded.Nodup := by
  have hinv := Requests.inv_of_reachable h.follows.reachable
  rw [h.follows.loaded]
  refine nodup_append.mpr ⟨?_, hinv.nodup, ?_⟩
  · exact (nodup_fileIds res).sublist ((List.filter_sublist).map _)
  · rintro fileId hrequired fileId' htaken rfl
    obtain ⟨fd, hfd, rfl⟩ := mem_map.mp hrequired
    obtain ⟨hmem, hwaits⟩ := mem_filter.mp hfd
    obtain ⟨fd', hfd'⟩ := Option.isSome_iff_exists.mp (hinv.available _ htaken)
    obtain ⟨hmem', hwaits', hid⟩ := waitingFile_eq_some.mp hfd'
    rw [List.inj_on_of_nodup_map (nodup_fileIds res) hmem' hmem hid] at hwaits'
    rw [hwaits'] at hwaits
    cases hwaits

theorem mem_loaded_of_request (hop : op ∈ w.log)
    (hrequest : requestOf res op = some fileId) (hobj : (res.object fileId).isSome = true) :
    fileId ∈ s.loaded := by
  have hinv := Requests.inv_of_reachable h.follows.reachable
  obtain ⟨obj, hobj⟩ := Option.isSome_iff_exists.mp hobj
  obtain ⟨fd, hfd, rfl, rfl⟩ := exists_mem_fileDefinitions res hobj
  rw [h.follows.loaded, mem_append]
  cases hwaits : res.waits fd.object with
  | false =>
    refine .inl (mem_map.mpr ⟨fd, mem_filter.mpr ⟨hfd, ?_⟩, rfl⟩)
    rw [hwaits]
    rfl
  | true =>
    refine .inr (hinv.granted op hop _ hrequest ?_)
    show (waitingFile res fd.fileId).isSome = true
    rw [waitingFile_eq_some.mpr ⟨hfd, hwaits, rfl⟩]
    rfl

end ResolutionState.Ends

end

/-! ## References -/

section

variable (res : ResolutionResources)

/-- The names that the prelude asks for: the entry symbol, and the symbols
that are to be undefined or to be redirected. -/
def preludeNames : List Bytes :=
  res.entrySymbolName ::
    (res.inputs.preludeSymbols.filter fun defInfo =>
      defInfo.placement = .forceUndefined ∨ defInfo.placement = .redirect).map (·.name)

/-- A slot that the object leaves undefined. -/
def IsUndefined (obj : SequencedInputObject) (index : Nat) (_ : SymtabEntry) : Prop :=
  res.symbolDefinitions (obj.symbolIdRange.start + index) = 0

/-- An undefined slot that is resolved: not that of the reserved symbol zero
of an ELF object, nor of a hidden symbol of a shared object. -/
def IsReference (obj : SequencedInputObject) (index : Nat) (symbol : SymtabEntry) : Prop :=
  IsUndefined res obj index symbol ∧ ¬ (res.platform = .elf ∧ index = 0) ∧
    ¬ (obj.parsed.isDynamic = true ∧ symbol.isHidden = true)

/-- The name of a symbol, with the version it has at its index. -/
def IsNamed (obj : SequencedInputObject) (index : Nat) (symbol : SymtabEntry)
    (name : PreHashedSymbolName) : Prop :=
  ∃ table nameBytes, obj.parsed.verneedTable = .ok table ∧ symbol.name = .ok nameBytes ∧
    name = .fromRaw (res.platform.rawSymbolName nameBytes table index)

/-- A strong reference of the object resolves to a symbol of the file. -/
def Pulls (references : SequencedInputObject → Nat → SymtabEntry → Prop)
    (obj : SequencedInputObject) (fileId : FileId) : Prop :=
  ∃ index symbol name id, obj.parsed.symbols[index]? = some symbol ∧
    references obj index symbol ∧ IsNamed res obj index symbol name ∧ symbol.isWeak = false ∧
    res.get name symbol.isInterposable = some id ∧ res.symbolFileIds id = fileId

/-- What is required is in the set, and with a file the objects that its
references pull in, except a shared object by another one. -/
structure SelectionClosed (references : SequencedInputObject → Nat → SymtabEntry → Prop)
    (S : Set FileId) : Prop where
  required : ∀ fileId obj, res.object fileId = some obj → res.waits obj = false → fileId ∈ S
  prelude : ∀ name ∈ preludeNames res, ∀ id, res.getUnversioned name = some id →
    (res.object (res.symbolFileIds id)).isSome = true → res.symbolFileIds id ∈ S
  reference : ∀ fileId ∈ S, ∀ obj, res.object fileId = some obj →
    ∀ target pulled, res.object target = some pulled → Pulls res references obj target →
    ¬ (obj.parsed.isDynamic = true ∧ pulled.parsed.isDynamic = true) → target ∈ S

/-- The version of each reference is the one at its place in its chunk, as
it is in an object of a single chunk. -/
def VersionsAgree : Prop :=
  ∀ fileId obj, res.object fileId = some obj → ∀ index symbol,
    obj.parsed.symbols[index]? = some symbol → IsReference res obj index symbol →
    ∀ table nameBytes, obj.parsed.verneedTable = .ok table → symbol.name = .ok nameBytes →
      res.platform.rawSymbolName nameBytes table (index % maxSymbolsPerWorkItem) =
        res.platform.rawSymbolName nameBytes table index

/-- An object whose symbol zero is not reserved does not leave it undefined. -/
def ZeroIsNoReference : Prop :=
  ∀ fileId obj, res.object fileId = some obj → ∀ symbol, obj.parsed.symbols[0]? = some symbol →
    ¬ IsReference res obj 0 symbol

end

section

variable {res : ResolutionResources}

variable {fileId : FileId} {obj : SequencedInputObject}

theorem group_of_object (h : res.object fileId = some obj) :
    ∃ objects, res.groups[fileId.group]? = some (.objects objects) ∧
      objects[fileId.file]? = some obj := by
  rw [object] at h
  split at h
  · rename_i objects hgroup
    exact ⟨objects, hgroup, h⟩
  · cases h

variable {definition : SymbolId} {symbol : SymtabEntry}

theorem skips_eq_false {index : Nat} : skips obj index symbol definition = false ↔
      definition = 0 ∧ index ≠ 0 ∧ ¬ (obj.parsed.isDynamic = true ∧ symbol.isHidden = true) := by
  simp only [skips, Bool.or_eq_false_iff, bne_eq_false_iff_eq, beq_eq_false_iff_ne,
    Bool.and_eq_false_iff, and_assoc, not_and_or, Bool.not_eq_true]

theorem workItemsDo_of_object {fd : FileDefinitions} (h : fd ∈ fileDefinitions res) :
    fileWork res fd = workItems maxSymbolsPerWorkItem fd.fileId 0 fd.object.symbolIdRange := by
  obtain ⟨hobj, hrange, -⟩ := mem_fileDefinitions res h
  obtain ⟨objects, hgroup, -⟩ := group_of_object hobj
  unfold fileWork workItemsDo
  rw [hgroup, hrange]

theorem initialEffect_of_object {request : LoadObjectSymbolsRequest} {obj : SequencedInputObject}
    (hobj : res.object request.fileId = some obj) (k : Nat) :
    initialEffect res (request, k + 1) =
      resolveSymbolAt res request.fileId obj request.symbolStartOffset k
        (res.symbolDefinitions (request.definitionsOut.start + k)) := by
  obtain ⟨objects, hgroup, hobj⟩ := group_of_object hobj
  unfold initialEffect stepEffect
  simp only [hgroup, hobj]
  rfl

theorem initialEffect_of_object_zero {request : LoadObjectSymbolsRequest}
    (hobj : res.object request.fileId = some obj) :
    requestOf res (request, 0) = none := by
  obtain ⟨objects, hgroup, hobj⟩ := group_of_object hobj
  unfold requestOf initialEffect stepEffect
  simp only [hgroup, hobj]
  cases obj.parsed.verneedTable with
  | error e => rfl
  | ok table => rfl

variable {target : FileId}

theorem requestedFile_eq_some {isDynamic isWeak : Bool} {symbolFileId : FileId} :
    requestedFile res isDynamic isWeak fileId symbolFileId = some target ↔
      target = symbolFileId ∧ symbolFileId ≠ fileId ∧ isWeak = false ∧
        ¬ (isDynamic = true ∧ res.isDynamic symbolFileId = true) := by
  rw [requestedFile]
  split
  · rename_i hcond
    constructor
    · intro h
      cases h
      exact ⟨rfl, hcond⟩
    · rintro ⟨rfl, -⟩
      rfl
  · rename_i hcond
    constructor
    · intro h
      cases h
    · rintro ⟨-, h⟩
      exact absurd h hcond

theorem isDynamic_of_object
    (h : res.object fileId = some obj) : res.isDynamic fileId = obj.parsed.isDynamic := by
  rw [isDynamic, h]
  rfl

theorem resolveSymbolAt_request {offset k : Nat} {effect : Effect}
    (h : resolveSymbolAt res fileId obj offset k definition = .ok effect)
    (htarget : effect.request = some target) :
    ∃ symbol table nameBytes id, obj.parsed.symbols[offset + k]? = some symbol ∧
      skips obj (offset + k) symbol definition = false ∧
      obj.parsed.verneedTable = .ok table ∧ symbol.name = .ok nameBytes ∧
      res.get (.fromRaw (res.platform.rawSymbolName nameBytes table k)) symbol.isInterposable =
        some id ∧
      requestedFile res obj.parsed.isDynamic symbol.isWeak fileId (res.symbolFileIds id) =
        some target := by
  unfold resolveSymbolAt at h
  split at h
  · cases h
    cases htarget
  · rename_i symbol hsym
    split at h
    · cases h
      cases htarget
    · rename_i hskips
      cases htable : obj.parsed.verneedTable with
      | error e => rw [htable] at h; cases h
      | ok table =>
        cases hname : symbol.name with
        | error e => rw [htable, hname] at h; cases h
        | ok nameBytes =>
          rw [htable, hname] at h
          cases h
          rw [resolveSymbol] at htarget
          split at htarget
          · rename_i id hget
            exact ⟨symbol, table, nameBytes, id, hsym, by simpa using hskips, rfl, hname,
              hget, htarget⟩
          · cases htarget

theorem resolveSymbolAt_eq {offset k : Nat} {table : VerneedTable} {nameBytes : Bytes}
    (hsym : obj.parsed.symbols[offset + k]? = some symbol)
    (hskips : skips obj (offset + k) symbol definition = false)
    (htable : obj.parsed.verneedTable = .ok table) (hname : symbol.name = .ok nameBytes) :
    resolveSymbolAt res fileId obj offset k definition =
      .ok (resolveSymbol res (obj.symbolIdRange.start + (offset + k))
        ⟨.fromRaw (res.platform.rawSymbolName nameBytes table k), symbol.isInterposable,
          symbol.isWeak⟩ obj.parsed.isDynamic fileId) := by
  unfold resolveSymbolAt
  rw [hsym]
  simp only [hskips, htable, hname]
  rfl

/-! ### From the steps of an object to its references and back -/

section

variable (hvers : VersionsAgree res) {fd : FileDefinitions} (hfd : fd ∈ fileDefinitions res)

include hvers hfd

variable {pulled : SequencedInputObject} {target : FileId}

theorem pulls_of_request {request : LoadObjectSymbolsRequest} (hrequest : request ∈ fileWork res fd)
    {k : Nat} (hk : k < request.steps) (htarget : requestOf res (request, k) = some target)
    (hpulled : res.object target = some pulled) :
    Pulls res (IsReference res) fd.object target ∧
      ¬ (fd.object.parsed.isDynamic = true ∧ pulled.parsed.isDynamic = true) := by
  obtain ⟨hobj, hrange, -⟩ := mem_fileDefinitions res hfd
  rw [workItemsDo_of_object hfd] at hrequest
  rw [← fileId_of_mem_workItems hrequest] at hobj
  cases k with
  | zero =>
    rw [initialEffect_of_object_zero hobj] at htarget
    cases htarget
  | succ k =>
    obtain ⟨i, hi, hoff, hslot, hmod⟩ := index_of_mem_workItems hrequest (Nat.lt_of_succ_lt_succ hk)
    rw [Nat.zero_add] at hoff
    rw [requestOf, initialEffect_of_object hobj, hslot] at htarget
    cases heffect : resolveSymbolAt res request.fileId fd.object request.symbolStartOffset k
        (res.symbolDefinitions (fd.object.symbolIdRange.start + i)) with
    | error e => rw [heffect] at htarget; cases htarget
    | ok effect =>
      rw [heffect] at htarget
      obtain ⟨symbol, table, nameBytes, id, hsym, hskips, htable, hname, hget, hreq⟩ :=
        resolveSymbolAt_request heffect htarget
      obtain ⟨rfl, -, hweak, hdyn⟩ := requestedFile_eq_some.mp hreq
      rw [hoff] at hsym hskips
      obtain ⟨hundef, hzero, hhidden⟩ := skips_eq_false.mp hskips
      have hreference : IsReference res fd.object i symbol :=
        ⟨hundef, fun hboth => hzero hboth.2, hhidden⟩
      rw [hmod, hvers _ _ hobj i symbol hsym hreference table nameBytes htable hname] at hget
      refine ⟨⟨i, symbol, _, id, hsym, hreference, ⟨table, nameBytes, htable, hname, rfl⟩,
        hweak, hget, rfl⟩, ?_⟩
      rw [isDynamic_of_object hpulled] at hdyn
      exact hdyn

theorem exists_request_of_pulls (hzero : ZeroIsNoReference res)
    (hpulls : Pulls res (IsReference res) fd.object target)
    (hpulled : res.object target = some pulled) (hne : target ≠ fd.fileId)
    (hdyn : ¬ (fd.object.parsed.isDynamic = true ∧ pulled.parsed.isDynamic = true)) :
    ∃ request ∈ fileWork res fd, ∃ k < request.steps, requestOf res (request, k) = some target := by
  obtain ⟨i, symbol, name, id, hsym, hreference, ⟨table, nameBytes, htable, hname, rfl⟩, hweak,
    hget, rfl⟩ := hpulls
  obtain ⟨hobj, hrange, hlen⟩ := mem_fileDefinitions res hfd
  have hskips : skips fd.object i symbol
      (res.symbolDefinitions (fd.object.symbolIdRange.start + i)) = false := by
    refine skips_eq_false.mpr ⟨hreference.1, ?_, hreference.2.2⟩
    rintro rfl
    exact hzero _ _ hobj symbol hsym hreference
  have hi : i < fd.object.symbolIdRange.len := by
    rw [hlen]
    exact (List.getElem?_eq_some_iff.mp hsym).1
  obtain ⟨request, hrequest, k, hk, hoff, hslot, hmod⟩ := @exists_mem_workItems
    maxSymbolsPerWorkItem fd.fileId 0 fd.object.symbolIdRange i hi
  have hfile := fileId_of_mem_workItems hrequest
  rw [Nat.zero_add] at hoff
  refine ⟨request, by rw [workItemsDo_of_object hfd]; exact hrequest, k + 1,
    Nat.succ_lt_succ hk, ?_⟩
  rw [← hvers _ _ hobj i symbol hsym hreference table nameBytes htable hname, ← hmod] at hget
  rw [← hfile] at hobj hne
  rw [requestOf, initialEffect_of_object hobj, hslot,
    resolveSymbolAt_eq (hoff.symm ▸ hsym) (hoff.symm ▸ hskips) htable hname]
  rw [resolveSymbol, hget]
  refine requestedFile_eq_some.mpr ⟨rfl, hne, hweak, ?_⟩
  rw [isDynamic_of_object hpulled]
  exact hdyn

end

/-! ### The prelude -/

theorem preludeWork_eq : preludeWork res = [⟨preludeFileId, 0, preludeRange res⟩] := by
  show workItems (preludeRange res).len preludeFileId 0 (preludeRange res) = _
  rw [workItems, dif_pos (.inl (Nat.le_refl _))]

theorem request_loadSymbolNamed {name : Bytes} : (loadSymbolNamed res name).request = some target ↔
      ∃ id, res.getUnversioned name = some id ∧ res.symbolFileIds id = target := by
  rw [loadSymbolNamed]
  cases res.getUnversioned name with
  | none => simp
  | some id => simp

theorem prelude_request_iff : (∃ k < (preludeRange res).len + 1,
        requestOf res (⟨preludeFileId, 0, preludeRange res⟩, k) = some target) ↔
      ∃ name ∈ preludeNames res, ∃ id, res.getUnversioned name = some id ∧
        res.symbolFileIds id = target := by
  have hsucc : ∀ k, requestOf res (⟨preludeFileId, 0, preludeRange res⟩, k + 1) =
      (loadDefinitionNamed res res.inputs.preludeSymbols k).request := fun _ => rfl
  constructor
  · rintro ⟨k, hk, hrequest⟩
    cases k with
    | zero =>
      exact ⟨res.entrySymbolName, mem_cons_self, request_loadSymbolNamed.mp hrequest⟩
    | succ k =>
      rw [hsucc, loadDefinitionNamed] at hrequest
      split at hrequest
      · rename_i defInfo hdef
        have hmem := List.mem_of_getElem? hdef
        refine ⟨defInfo.name, mem_cons_of_mem _ (mem_map_of_mem (mem_filter.mpr ⟨hmem, ?_⟩)), ?_⟩
        · cases hplacement : defInfo.placement with
          | forceUndefined => rfl
          | redirect => rfl
          | undefined => rw [hplacement] at hrequest; cases hrequest
          | other => rw [hplacement] at hrequest; cases hrequest
        · cases hplacement : defInfo.placement with
          | forceUndefined | redirect =>
            rw [hplacement] at hrequest; exact request_loadSymbolNamed.mp hrequest
          | undefined => rw [hplacement] at hrequest; cases hrequest
          | other => rw [hplacement] at hrequest; cases hrequest
      · cases hrequest
  · rintro ⟨name, hname, hget⟩
    rcases mem_cons.mp hname with rfl | hname
    · exact ⟨0, Nat.succ_pos _, request_loadSymbolNamed.mpr hget⟩
    · obtain ⟨defInfo, hdef, rfl⟩ := mem_map.mp hname
      obtain ⟨hmem, hplacement⟩ := mem_filter.mp hdef
      obtain ⟨k, hk, hk'⟩ := List.getElem_of_mem hmem
      refine ⟨k + 1, Nat.succ_lt_succ hk, ?_⟩
      rw [hsucc, loadDefinitionNamed, List.getElem?_eq_getElem hk, hk']
      cases hp : defInfo.placement with
      | forceUndefined | redirect =>
        simp only [hp]
        exact request_loadSymbolNamed.mpr hget
      | undefined => rw [hp] at hplacement; cases hplacement
      | other => rw [hp] at hplacement; cases hplacement

/-! ### The least selection -/

section

variable (hvers : VersionsAgree res) (hzero : ZeroIsNoReference res)
  {flags : SymbolId → ValueFlags} {s : ResolutionState} {w : Requests.State WorkStep FileId}
  (h : s.Ends res flags w)

theorem mem_of_takenFiles {taken : List FileId} {fd : FileDefinitions}
    (hfd : fd ∈ takenFiles res taken) : fd ∈ fileDefinitions res := by
  rcases mem_append.mp hfd with hfd | hfd
  · exact (mem_filter.mp hfd).1
  · obtain ⟨fileId, -, hfile⟩ := mem_filterMap.mp hfd
    exact (waitingFile_eq_some.mp hfile).1

variable {S : Set FileId}

include hvers in
/-- Whatever a step of a loaded file requests is in every closed set. -/
theorem mem_of_closed (hS : SelectionClosed res (IsReference res) S)
    {request : LoadObjectSymbolsRequest} (hwork : request ∈ preludeWork res ∨
      ∃ fd ∈ fileDefinitions res, fd.fileId ∈ S ∧ request ∈ fileWork res fd)
    {k : Nat} (hk : k < request.steps) {target : FileId}
    (htarget : requestOf res (request, k) = some target)
    (havailable : (waitingFile res target).isSome = true) : target ∈ S := by
  obtain ⟨fd', hfd'⟩ := Option.isSome_iff_exists.mp havailable
  obtain ⟨hmem', -, rfl⟩ := waitingFile_eq_some.mp hfd'
  obtain ⟨hobj', -, -⟩ := mem_fileDefinitions res hmem'
  rcases hwork with hprelude | ⟨fd, hfd, hin, hrequest⟩
  · rw [preludeWork_eq, mem_singleton] at hprelude
    subst hprelude
    obtain ⟨name, hname, id, hget, hid⟩ := prelude_request_iff.mp ⟨k, hk, htarget⟩
    rw [← hid]
    refine hS.prelude name hname id hget ?_
    rw [hid, hobj']
    rfl
  · obtain ⟨hpulls, hdyn⟩ := pulls_of_request hvers hfd hrequest hk htarget hobj'
    exact hS.reference fd.fileId hin fd.object (mem_fileDefinitions res hfd).1 _ _ hobj' hpulls hdyn

include hvers in
theorem closed_of_selectionClosed
    (hS : SelectionClosed res (IsReference res) S) : (requests res).Closed S := by
  constructor
  · intro op hop target htarget havailable
    obtain ⟨task, htask, hop⟩ := List.mem_flatten.mp hop
    obtain ⟨request, hrequest, rfl⟩ := mem_map.mp htask
    obtain ⟨rfl, -, hlt⟩ := mem_stepsFrom hop
    refine mem_of_closed hvers hS ?_ (by simpa [Running.start] using hlt) htarget havailable
    rcases mem_append.mp hrequest with hprelude | hrequired
    · exact .inl hprelude
    · obtain ⟨fd, hfd, hrequest⟩ := mem_flatMap.mp hrequired
      obtain ⟨hmem, hwaits⟩ := mem_filter.mp hfd
      refine .inr ⟨fd, hmem, ?_, hrequest⟩
      exact hS.required _ _ (mem_fileDefinitions res hmem).1 (by simpa using hwaits)
  · intro fileId hin op hop target htarget havailable
    obtain ⟨task, htask, hop⟩ := List.mem_flatten.mp hop
    obtain ⟨request, hrequest, rfl⟩ := mem_map.mp htask
    obtain ⟨rfl, -, hlt⟩ := mem_stepsFrom hop
    refine mem_of_closed hvers hS ?_ (by simpa [Running.start] using hlt) htarget havailable
    cases hfile : waitingFile res fileId with
    | none => rw [hfile] at hrequest; cases hrequest
    | some fd =>
      rw [hfile] at hrequest
      obtain ⟨hmem, -, rfl⟩ := waitingFile_eq_some.mp hfile
      exact .inr ⟨fd, hmem, hin, hrequest⟩

include hvers hzero h in
theorem selectionClosed_loaded : SelectionClosed res (IsReference res) {f | f ∈ s.loaded} where
  required fileId obj hobj hwaits := by
    obtain ⟨fd, hfd, rfl, rfl⟩ := exists_mem_fileDefinitions res hobj
    refine h.mem_loaded.mpr ⟨fd, mem_append_left _ (mem_filter.mpr ⟨hfd, ?_⟩), rfl⟩
    rw [hwaits]
    rfl
  prelude name hname id hget hobj := by
    obtain ⟨k, hk, hrequest⟩ := prelude_request_iff.mpr ⟨name, hname, id, hget, rfl⟩
    refine h.mem_loaded_of_request ?_ hrequest hobj
    refine h.mem_log.mpr ⟨mem_allWork.mpr (.inl ?_), hk⟩
    rw [preludeWork_eq]
    exact mem_singleton_self _
  reference fileId hin obj hobj target pulled hpulled hpulls hdyn := by
    obtain ⟨fd, hfd, rfl⟩ := h.mem_loaded.mp hin
    have hmem := mem_of_takenFiles hfd
    obtain ⟨hobj', -, -⟩ := mem_fileDefinitions res hmem
    rw [hobj] at hobj'
    cases hobj'
    by_cases hself : target = fd.fileId
    · rw [hself]
      exact hin
    · obtain ⟨request, hrequest, k, hk, htarget⟩ :=
        exists_request_of_pulls hvers hmem hzero hpulls hpulled hself hdyn
      refine h.mem_loaded_of_request ?_ htarget (by rw [hpulled]; rfl)
      exact h.mem_log.mpr ⟨mem_allWork.mpr (.inr ⟨fd, hfd, hrequest⟩), hk⟩

include hvers hzero h in
theorem isLeast_loaded :
    IsLeast {S : Set FileId | SelectionClosed res (IsReference res) S} {f | f ∈ s.loaded} := by
  refine ⟨selectionClosed_loaded hvers hzero h, ?_⟩
  intro S hS fileId hin
  have hinv := Requests.inv_of_reachable h.follows.reachable
  obtain ⟨fd, hfd, rfl⟩ := h.mem_loaded.mp hin
  rcases mem_append.mp hfd with hrequired | htaken
  · obtain ⟨hmem, hwaits⟩ := mem_filter.mp hrequired
    exact hS.required _ _ (mem_fileDefinitions res hmem).1 (by simpa using hwaits)
  · obtain ⟨fileId, htaken, hfile⟩ := mem_filterMap.mp htaken
    rw [(waitingFile_eq_some.mp hfile).2.2]
    exact hinv.least S (closed_of_selectionClosed hvers hS) fileId htaken

include h in
/-- The slots that were resolved are those of the prelude and of the files
that were loaded. -/
theorem mem_resolved_iff {id : SymbolId} : id ∈ s.resolved ↔ id ∈ (preludeRange res).slots ∨
      ∃ fileId ∈ s.loaded, ∃ obj, res.object fileId = some obj ∧ id ∈ obj.symbolIdRange.slots := by
  rw [h.mem_resolved]
  simp only [mem_allWork]
  constructor
  · rintro ⟨request, hprelude | ⟨fd, hfd, hrequest⟩, hid⟩
    · refine .inl ?_
      rw [← slots_preludeWork]
      exact mem_flatMap.mpr ⟨request, hprelude, hid⟩
    · obtain ⟨hobj, hrange, -⟩ := mem_fileDefinitions res (mem_of_takenFiles hfd)
      refine .inr ⟨fd.fileId, h.mem_loaded.mpr ⟨fd, hfd, rfl⟩, fd.object, hobj, ?_⟩
      rw [← hrange, ← @slots_fileWork res]
      exact mem_flatMap.mpr ⟨request, hrequest, hid⟩
  · rintro (hid | ⟨fileId, hin, obj, hobj, hid⟩)
    · rw [← slots_preludeWork] at hid
      obtain ⟨request, hrequest, hid⟩ := mem_flatMap.mp hid
      exact ⟨request, .inl hrequest, hid⟩
    · obtain ⟨fd, hfd, rfl⟩ := h.mem_loaded.mp hin
      obtain ⟨hobj', hrange, -⟩ := mem_fileDefinitions res (mem_of_takenFiles hfd)
      rw [hobj] at hobj'
      cases hobj'
      rw [← hrange, ← @slots_fileWork res] at hid
      obtain ⟨request, hrequest, hid⟩ := mem_flatMap.mp hid
      exact ⟨request, .inr ⟨fd, hfd, hrequest⟩, hid⟩

end

/-! ## The selection -/

variable {id : SymbolId}

theorem not_mem_prelude (hobj : res.object fileId = some obj)
    (hprelude : id ∈ (preludeRange res).slots) : id ∉ obj.symbolIdRange.slots := by
  intro hid
  obtain ⟨fd, hfd, -, rfl⟩ := exists_mem_fileDefinitions res hobj
  rw [← (mem_fileDefinitions res hfd).2.1] at hid
  exact (nodup_append.mp (nodup_slots res)).2.2 id hprelude id (mem_flatMap.mpr ⟨fd, hfd, hid⟩) rfl

theorem fileId_eq_of_mem_slots {fileId' : FileId} {obj' : SequencedInputObject}
    (hobj : res.object fileId = some obj) (hobj' : res.object fileId' = some obj')
    (hid : id ∈ obj.symbolIdRange.slots) (hid' : id ∈ obj'.symbolIdRange.slots) :
    fileId = fileId' := by
  obtain ⟨fd, hfd, rfl, rfl⟩ := exists_mem_fileDefinitions res hobj
  obtain ⟨fd', hfd', rfl, rfl⟩ := exists_mem_fileDefinitions res hobj'
  rw [← (mem_fileDefinitions res hfd).2.1] at hid
  rw [← (mem_fileDefinitions res hfd').2.1] at hid'
  by_contra hne
  have hpair := (List.nodup_flatMap.mp (nodup_append.mp (nodup_slots res)).2.1).2
  have hsymm : Std.Symm (Function.onFun List.Disjoint
      fun fd : FileDefinitions => fd.definitionsOut.slots) := ⟨fun a b hab id hb ha => hab ha hb⟩
  have hdisj := hpair.forall hfd hfd' (fun heq => hne (by rw [heq]))
  exact hdisj hid hid'

/-- Whatever the order of the work items, the files that are loaded are the
least selection, each is loaded once, and each slot of theirs is resolved
once. -/
theorem archiveSelection_isLeast (res : ResolutionResources) (hvers : VersionsAgree res)
    (hzero : ZeroIsNoReference res) {flags : SymbolId → ValueFlags} {s : ResolutionState}
    (h : ResolveSymbolsAndSelectArchiveEntries res flags s) :
    IsLeast {S : Set FileId | SelectionClosed res (IsReference res) S} {f | f ∈ s.loaded} ∧
      s.loaded.Nodup ∧ s.resolved.Nodup ∧
      ∀ fileId obj, res.object fileId = some obj → ∀ id ∈ obj.symbolIdRange.slots,
        id ∈ s.resolved ↔ fileId ∈ s.loaded := by
  obtain ⟨w, hw⟩ := h.exists_ends
  refine ⟨isLeast_loaded hvers hzero hw, hw.loaded_nodup, hw.resolved_nodup, ?_⟩
  intro fileId obj hobj id hid
  rw [mem_resolved_iff hw]
  constructor
  · rintro (hprelude | ⟨fileId', hin, obj', hobj', hid'⟩)
    · exact absurd hid (not_mem_prelude hobj hprelude)
    · rw [fileId_eq_of_mem_slots hobj hobj' hid hid']
      exact hin
  · intro hin
    exact .inr ⟨fileId, hin, obj, hobj, hid⟩

end

/-! ### What is passed over -/

section

def nullSymbol : SymtabEntry :=
  ⟨.ok [], true, true, false, false, false, false, false, false, true, .default, 0⟩

def globalSymbol (name : Bytes) (isUndefined isHidden : Bool) : SymtabEntry :=
  ⟨.ok name, isUndefined, false, false, false, false, false, false, isHidden, !isHidden,
    if isHidden then .hidden else .default, 0⟩

/-- An object that refers to `foo` and an archive member that defines it. -/
def referenceTo (isDynamic isHidden : Bool) : ResolutionResources where
  platform := .elf
  inputs :=
    { linkerDefined := []
      objectGroups := [[⟨[nullSymbol, globalSymbol [102, 111, 111] true isHidden], [], [], isDynamic, false,
          false, false, .ok ⟨[], []⟩⟩,
        ⟨[nullSymbol, globalSymbol [102, 111, 111] false false], [], [], false, true, false, false,
          .ok ⟨[], []⟩⟩]]
      linkerScripts := [] }
  hashBytes _ := 0
  buckets := [⟨⟨[([102, 111, 111], 4)], []⟩, ⟨[], []⟩⟩]
  symbolFileIds id := if id = 0 then preludeFileId else if id ≤ 2 then ⟨1, 0⟩ else ⟨1, 1⟩
  symbolDefinitions id := if id = 4 then 4 else 0
  entrySymbolName := []
  exportListRootsArchiveSymbols := false
  exportList := none

theorem object_referenceTo {isDynamic isHidden : Bool} {fileId : FileId}
    {obj : SequencedInputObject} (h : (referenceTo isDynamic isHidden).object fileId = some obj) :
    (fileId = ⟨1, 0⟩ ∧ obj = ⟨⟨[nullSymbol, globalSymbol [102, 111, 111] true isHidden], [], [], isDynamic,
        false, false, false, .ok ⟨[], []⟩⟩, 1, 2⟩) ∨
      (fileId = ⟨1, 1⟩ ∧ obj = ⟨⟨[nullSymbol, globalSymbol [102, 111, 111] false false], [], [], false,
        true, false, false, .ok ⟨[], []⟩⟩, 3, 2⟩) := by
  obtain ⟨fd, hfd, rfl, rfl⟩ := exists_mem_fileDefinitions _ h
  have hlist : fileDefinitions (referenceTo isDynamic isHidden) =
      [⟨⟨1, 0⟩, ⟨⟨[nullSymbol, globalSymbol [102, 111, 111] true isHidden], [], [], isDynamic,
        false, false, false, .ok ⟨[], []⟩⟩, 1, 2⟩, 1, 2⟩,
       ⟨⟨1, 1⟩, ⟨⟨[nullSymbol, globalSymbol [102, 111, 111] false false], [], [], false,
        true, false, false, .ok ⟨[], []⟩⟩, 3, 2⟩, 3, 2⟩] := rfl
  rw [hlist] at hfd
  rcases mem_cons.mp hfd with rfl | hfd
  · exact .inl ⟨rfl, rfl⟩
  · obtain rfl := mem_singleton.mp hfd
    exact .inr ⟨rfl, rfl⟩

theorem readable_referenceTo (isDynamic isHidden : Bool) :
    Readable (referenceTo isDynamic isHidden) := by
  intro fileId obj hobj
  have hnames : ∀ isUndefined isHidden, ∀ symbol ∈ [nullSymbol,
      globalSymbol [102, 111, 111] isUndefined isHidden], symbol.name.isOk = true := by
    intro isUndefined isHidden symbol hsym
    rcases mem_cons.mp hsym with rfl | hsym
    · rfl
    · obtain rfl := mem_singleton.mp hsym
      rfl
  rcases object_referenceTo hobj with ⟨-, rfl⟩ | ⟨-, rfl⟩
  · exact ⟨rfl, hnames _ _⟩
  · exact ⟨rfl, hnames _ _⟩

theorem versionsAgree_referenceTo (isDynamic isHidden : Bool) :
    VersionsAgree (referenceTo isDynamic isHidden) := by
  intro fileId obj hobj index symbol _ _ table nameBytes htable _
  have : table = ⟨[], []⟩ := by
    rcases object_referenceTo hobj with ⟨-, rfl⟩ | ⟨-, rfl⟩
    · exact (Except.ok.inj htable).symm
    · exact (Except.ok.inj htable).symm
  subst this
  rfl

theorem zeroIsNoReference_referenceTo (isDynamic isHidden : Bool) :
    ZeroIsNoReference (referenceTo isDynamic isHidden) :=
  fun _ _ _ _ _ hreference => hreference.2.1 ⟨rfl, rfl⟩

theorem archiveSelection_isLeast_referenceTo :
    ∃ s, ResolveSymbolsAndSelectArchiveEntries (referenceTo false false)
        (fun _ => ⟨false, false, false⟩) s ∧
      IsLeast {S : Set FileId | SelectionClosed (referenceTo false false)
        (IsReference (referenceTo false false)) S} {f | f ∈ s.loaded} ∧
      s.loaded.Nodup ∧ s.resolved.Nodup ∧
      ∀ fileId obj, (referenceTo false false).object fileId = some obj →
        ∀ id ∈ obj.symbolIdRange.slots, id ∈ s.resolved ↔ fileId ∈ s.loaded := by
  obtain ⟨s, hs⟩ := @exists_resolution (referenceTo false false) (fun _ => ⟨false, false, false⟩)
    (List.cons_ne_nil _ _) (readable_referenceTo _ _)
  exact ⟨s, hs, archiveSelection_isLeast _ (versionsAgree_referenceTo _ _)
    (zeroIsNoReference_referenceTo _ _) hs⟩

theorem selectionClosed_hidden : SelectionClosed (referenceTo true true)
    (IsReference (referenceTo true true)) {⟨1, 0⟩} where
  required fileId obj hobj hwaits := by
    rcases object_referenceTo hobj with ⟨rfl, -⟩ | ⟨-, rfl⟩
    · rfl
    · cases hwaits
  prelude name hname id hget _ := by
    obtain rfl : name = [] := mem_singleton.mp hname
    have hnone : (referenceTo true true).getUnversioned [] = none := rfl
    cases hget
  reference fileId hin obj hobj target pulled _ hpulls _ := by
    obtain ⟨index, symbol, name, id, hsym, hreference, -⟩ := hpulls
    rcases object_referenceTo hobj with ⟨-, rfl⟩ | ⟨rfl, -⟩
    · match index, hsym with
      | 0, _ => exact absurd ⟨rfl, rfl⟩ hreference.2.1
      | 1, hsym =>
        cases hsym
        exact absurd ⟨rfl, rfl⟩ hreference.2.2
    · cases hin

theorem hidden_reference_is_passed_over :
    (∃ s, ResolveSymbolsAndSelectArchiveEntries (referenceTo true true)
      (fun _ => ⟨false, false, false⟩) s) ∧
    ∀ s, ResolveSymbolsAndSelectArchiveEntries (referenceTo true true)
        (fun _ => ⟨false, false, false⟩) s →
      ¬ IsLeast {S : Set FileId | SelectionClosed (referenceTo true true)
        (IsUndefined (referenceTo true true)) S} {f | f ∈ s.loaded} := by
  refine ⟨exists_resolution (List.cons_ne_nil _ _) (readable_referenceTo _ _), ?_⟩
  intro s hs hleast
  obtain ⟨w, hw⟩ := hs.exists_ends
  have hloaded := (isLeast_loaded (versionsAgree_referenceTo _ _)
    (zeroIsNoReference_referenceTo _ _) hw).2 selectionClosed_hidden
  have hobject : (referenceTo true true).object ⟨1, 0⟩ = some ⟨⟨[nullSymbol,
      globalSymbol [102, 111, 111] true true], [], [], true, false, false, false, .ok ⟨[], []⟩⟩, 1, 2⟩ := rfl
  have hmember : (referenceTo true true).object ⟨1, 1⟩ = some ⟨⟨[nullSymbol,
      globalSymbol [102, 111, 111] false false], [], [], false, true, false, false, .ok ⟨[], []⟩⟩, 3, 2⟩ :=
    rfl
  have hfirst := hleast.1.required _ _ hobject rfl
  have hpulls : Pulls (referenceTo true true) (IsUndefined (referenceTo true true))
      ⟨⟨[nullSymbol, globalSymbol [102, 111, 111] true true], [], [], true, false, false, false,
        .ok ⟨[], []⟩⟩, 1, 2⟩ ⟨1, 1⟩ :=
    ⟨1, _, .unversioned [102, 111, 111], 4, rfl, rfl, ⟨_, _, rfl, rfl, rfl⟩, rfl, rfl, rfl⟩
  have hsecond := hleast.1.reference _ hfirst _ hobject _ _ hmember hpulls
    (fun hdyn => (by cases hdyn.2))
  cases hloaded hsecond

end

end Sld.Symbols
