/-
# `Incremental.FdeAdditionWalks` — `.eh_frame` with new frame descriptions

What one candidate resolves to is an entry with its two pointers in place
(`ResolvedAt`, `resolve_eq_ok`), and the loop puts them one after the other
(`resolveAll_eq_ok`).  The patches write all of them and a new end where the
old one was, so a walk through the patched section finds the old entries and
then the new ones (`added_fdes_are_walked`).
-/
import Sld.Incremental.EhFrameHdrPatches
import Sld.Incremental.FdeAdditions

namespace Sld.Incremental

open Fdes (fdePcBeginOffset)
open Store (Patch window splice)
open Store.Entries (IsEnd lengthOf walk walkFrom)
open Text.Reader (ok_bind bind_eq_ok orError_eq_ok orError_some)
open SectionPatch (plain toPatch writes_plain)
open ResolvedFdeAdd (patch record)
open List (length_append map map_map)

/-- The entries of a section, up to its end. -/
abbrev walkFrame (ehFrame : List UInt8) : Option (List (List UInt8)) := walk ofLeBytes 4 ehFrame

/-! ## The end of the section -/

variable {ehFrame : List UInt8} {entries : List (List UInt8)}

theorem ehFrameTerminatorFrom_eq {fuel offset : ℕ}
    (h : walkFrom ofLeBytes 4 fuel (ehFrame.drop offset) = some entries) :
    ehFrameTerminatorFrom ehFrame fuel offset = some (offset + entries.flatten.length) := by
  induction fuel generalizing offset entries with
  | zero => cases h
  | succ fuel ih =>
    have hlen : lengthOf ofLeBytes 4 (ehFrame.drop offset) =
        ofLeBytes (window ehFrame offset 4) := rfl
    rw [walkFrom, hlen, List.length_drop] at h
    rw [ehFrameTerminatorFrom]
    split at h
    · cases h
    rw [if_neg (by omega)]
    split at h
    · next hzero =>
      cases h
      rw [if_pos hzero]
      rfl
    next hpos =>
    split at h
    · cases h
    next hfits =>
      obtain ⟨rest, hrest, rfl⟩ := Option.map_eq_some_iff.mp h
      rw [List.drop_drop] at hrest
      have hentry : ((ehFrame.drop offset).take (ofLeBytes (window ehFrame offset 4) + 4)).length =
          ofLeBytes (window ehFrame offset 4) + 4 := by
        rw [List.length_take, List.length_drop]
        omega
      rw [if_neg hpos, ih hrest, List.flatten_cons, length_append, hentry, Nat.add_assoc]

theorem ehFrameTerminatorOffset_eq (h : walkFrame ehFrame = some entries) :
    ehFrameTerminatorOffset ehFrame = some entries.flatten.length := by
  have hterminator : ehFrameTerminatorOffset ehFrame = some (0 + entries.flatten.length) :=
    ehFrameTerminatorFrom_eq h
  rwa [Nat.zero_add] at hterminator

/-! ## One candidate -/

namespace EhFrameOutput

variable (eh : EhFrameOutput)

/-- A frame description with its two pointers. -/
def withPointers (fdeData : List UInt8) (ciePointer : ℕ) (pcBegin : Int32) : List UInt8 :=
  splice (splice fdeData 4 (leBytes ciePointer 4)) fdePcBeginOffset (i32LeBytes pcBegin)

/-- What a candidate becomes at an offset. -/
structure ResolvedAt (outputOffset : ℕ) (candidate : FdeAddCandidate) (resolved : ResolvedFdeAdd) :
    Prop where
  data : ∃ ciePointer pcBegin, resolved.patch.data =
    withPointers candidate.fdeData ciePointer pcBegin
  entry : IsFrameEntry resolved.patch.data
  long : 12 ≤ resolved.patch.data.length
  size : resolved.patch.size.toNat = resolved.patch.data.length
  record : resolved.record = candidate.record outputOffset resolved.patch.data.length
  cie : ∃ cie, outputCieOffsetForFde eh.output candidate.cieReferenceFdeOutputOffset = some cie ∧
    cie ≤ outputOffset + 4 ∧
    ofLeBytes (window resolved.patch.data 4 4) = outputOffset + 4 - cie
  target : ∃ address, outputAddressForFileOffset eh.file candidate.targetOutputOffset = some address ∧
    (eh.fdeAddress outputOffset + fdePcBeginOffset +
      (readI32Le (window resolved.patch.data fdePcBeginOffset 4)).toInt) % 2 ^ 64 =
        (address.toNat + candidate.targetSectionOffset.toNat : ℤ)

section

variable {fdeData : List UInt8} {ciePointer : ℕ} {pcBegin : Int32}

section

variable (h : 12 ≤ fdeData.length)

include h

theorem length_splice_pointer : (splice fdeData 4 (leBytes ciePointer 4)).length = fdeData.length :=
  Store.length_splice (by rw [length_leBytes]; omega)

theorem length_withPointers :
    (withPointers fdeData ciePointer pcBegin).length = fdeData.length := by
  have hinner : (splice fdeData 4 (leBytes ciePointer 4)).length = fdeData.length :=
    length_splice_pointer h
  refine (Store.length_splice ?_).trans hinner
  rw [hinner]
  exact h

theorem lengthOf_withPointers :
    lengthOf ofLeBytes 4 (withPointers fdeData ciePointer pcBegin) = lengthOf ofLeBytes 4 fdeData := by
  have hinner : (splice fdeData 4 (leBytes ciePointer 4)).length = fdeData.length :=
    length_splice_pointer h
  have hfront : window (withPointers fdeData ciePointer pcBegin) 0 4 = window fdeData 0 4 := by
    rw [withPointers, Store.window_splice_outside, Store.window_splice_outside]
    · rw [length_leBytes]
      omega
    · exact .inl (Nat.le_refl _)
    · rw [hinner]
      exact h
    · left
      show 0 + 4 ≤ 8
      omega
  exact congrArg ofLeBytes hfront

theorem window_ciePointer :
    window (withPointers fdeData ciePointer pcBegin) 4 4 = leBytes ciePointer 4 := by
  have hinner : (splice fdeData 4 (leBytes ciePointer 4)).length = fdeData.length :=
    length_splice_pointer h
  have hptr : window (splice fdeData 4 (leBytes ciePointer 4)) 4 (leBytes ciePointer 4).length =
      leBytes ciePointer 4 := Store.window_splice (by rw [length_leBytes]; omega)
  rw [length_leBytes] at hptr
  rw [withPointers, Store.window_splice_outside, hptr]
  · rw [hinner]
    exact h
  · exact .inl (Nat.le_refl _)

theorem window_pcBegin :
    window (withPointers fdeData ciePointer pcBegin) fdePcBeginOffset 4 = i32LeBytes pcBegin := by
  have hinner : (splice fdeData 4 (leBytes ciePointer 4)).length = fdeData.length :=
    length_splice_pointer h
  have hptr : window (withPointers fdeData ciePointer pcBegin) fdePcBeginOffset
      (i32LeBytes pcBegin).length = i32LeBytes pcBegin :=
    Store.window_splice (by rw [length_i32LeBytes, hinner]; exact h)
  rwa [length_i32LeBytes] at hptr

theorem isFrameEntry_withPointers (hentry : IsFrameEntry fdeData) :
    IsFrameEntry (withPointers fdeData ciePointer pcBegin) := by
  have hlen : (withPointers fdeData ciePointer pcBegin).length = fdeData.length :=
    length_withPointers h
  have hfront : lengthOf ofLeBytes 4 (withPointers fdeData ciePointer pcBegin) =
      lengthOf ofLeBytes 4 fdeData := lengthOf_withPointers h
  exact ⟨hlen ▸ hentry.width_le, hfront ▸ hentry.pos, by rw [hlen, hfront, ← hentry.length_eq]⟩

end

theorem length_lt_of_isFrameEntry (hentry : IsFrameEntry fdeData) : fdeData.length < 2 ^ 64 := by
  have hlt : ofLeBytes (fdeData.take 4) < 256 ^ (fdeData.take 4).length := ofLeBytes_lt _
  have hwidth : (fdeData.take 4).length = 4 := by
    rw [List.length_take]
    exact Nat.min_eq_left hentry.width_le
  have hlen : fdeData.length = ofLeBytes (fdeData.take 4) + 4 := hentry.length_eq
  rw [hwidth] at hlt
  omega

end

variable {eh} {outputOffset stop : ℕ} {candidate : FdeAddCandidate} {resolved : ResolvedFdeAdd}
  {candidates : List FdeAddCandidate} {list : List ResolvedFdeAdd}

theorem resolve_eq_ok (h : eh.resolve outputOffset candidate = .ok resolved) :
    eh.ResolvedAt outputOffset candidate resolved := by
  obtain ⟨address, haddr, h⟩ := bind_eq_ok.mp h
  dsimp only at h
  split at h
  · cases h
  split at h
  · cases h
  obtain ⟨cie, hcie, h⟩ := bind_eq_ok.mp h
  split at h
  · cases h
  split at h
  · cases h
  next hfits =>
  split at h
  · cases h
  next hrange =>
  obtain ⟨change, -, h⟩ := bind_eq_ok.mp h
  cases h
  have hbefore : (splice candidate.fdeData 4 (leBytes (outputOffset + 4 - cie) 4)).length =
      candidate.fdeData.length := Store.length_splice candidate.ciePointer
  rw [candidate.pcBegin, hbefore] at hrange
  have hlong : 12 ≤ candidate.fdeData.length := Nat.not_lt.mp hrange
  rw [candidate.pcBegin]
  have hentry : IsFrameEntry (withPointers candidate.fdeData (outputOffset + 4 - cie)
      (Int32.ofInt (address.toNat + candidate.targetSectionOffset.toNat -
        eh.fieldAddress outputOffset))) :=
    isFrameEntry_withPointers hlong candidate.entry
  refine ⟨⟨_, _, rfl⟩, hentry, (length_withPointers hlong).symm ▸ hlong,
    UInt64.toNat_ofNat_of_lt' (length_lt_of_isFrameEntry hentry), rfl, ⟨cie, orError_eq_ok.mp hcie, by omega, ?_⟩,
    address, orError_eq_ok.mp haddr, ?_⟩
  · show ofLeBytes (window (withPointers _ _ _) 4 4) = _
    rw [window_ciePointer hlong, ofLeBytes_leBytes]
    exact Nat.mod_eq_of_lt (by omega)
  · show (_ + (readI32Le (window (withPointers _ _ _) fdePcBeginOffset 4)).toInt) % _ = _
    obtain ⟨hlow, hhigh⟩ := not_not.mp hfits
    rw [window_pcBegin hlong, readI32Le_i32LeBytes, Int32.toInt_ofInt_of_le hlow hhigh]
    have hfield : eh.fieldAddress outputOffset =
        (eh.fdeAddress outputOffset + fdePcBeginOffset) % 2 ^ 64 := rfl
    have hcast : ((eh.fieldAddress outputOffset : ℕ) : ℤ) =
        ((eh.fdeAddress outputOffset : ℤ) + fdePcBeginOffset) % 2 ^ 64 := by
      rfl
    omega

theorem ResolvedAt.toNat_outputOffset (h : eh.ResolvedAt outputOffset candidate resolved)
    (hlt : outputOffset < 2 ^ 64) : resolved.record.outputOffset.toNat = outputOffset := by
  rw [h.record]
  exact UInt64.toNat_ofNat_of_lt' hlt

/-- The entries that candidates resolve to. -/
def entriesOf (list : List ResolvedFdeAdd) : List (List UInt8) := list.map fun r => r.patch.data

theorem resolveAll_eq_ok (h : eh.resolveAll outputOffset candidates = .ok (stop, list)) :
    stop = outputOffset + (entriesOf list).flatten.length ∧ list.length = candidates.length ∧
      ∀ k candidate, candidates[k]? = some candidate → ∃ resolved, list[k]? = some resolved ∧
        eh.ResolvedAt (outputOffset + ((entriesOf list).take k).flatten.length) candidate
          resolved := by
  induction candidates generalizing outputOffset list with
  | nil =>
    cases h
    exact ⟨rfl, rfl, fun k candidate hk => (by cases hk)⟩
  | cons first candidates ih =>
    obtain ⟨resolved, hresolved, h⟩ := bind_eq_ok.mp h
    dsimp only at h
    split at h
    · cases h
    obtain ⟨⟨offset, rest⟩, hrest, h⟩ := bind_eq_ok.mp h
    cases h
    have hfirst := resolve_eq_ok hresolved
    obtain ⟨hstop, hlen, hat⟩ := ih hrest
    have hflatten : ∀ entries : List (List UInt8), outputOffset + resolved.patch.size.toNat +
        entries.flatten.length = outputOffset + (resolved.patch.data :: entries).flatten.length := by
      intro entries
      rw [hfirst.size, List.flatten_cons, length_append, Nat.add_assoc]
    refine ⟨hstop.trans (hflatten _), ?_, ?_⟩
    · rw [List.length_cons, hlen, List.length_cons]
    · intro k candidate hk
      cases k with
      | zero =>
        obtain rfl : first = candidate := Option.some.inj hk
        exact ⟨resolved, rfl, hfirst⟩
      | succ k =>
        obtain ⟨r, hr, hresolvedAt⟩ := hat k candidate hk
        rw [hflatten] at hresolvedAt
        exact ⟨r, hr, hresolvedAt⟩

end EhFrameOutput

/-! ## The patches -/

open EhFrameOutput (entriesOf)

section

variable {output : List UInt8} {start : ℕ} {list : List ResolvedFdeAdd}

/-- The output with the new entries and a new end. -/
def withEntries (output : List UInt8) (start : ℕ) (added : List (List UInt8)) : List UInt8 :=
  splice output start (added.flatten ++ leBytes 0 4)

theorem record_mergePatches :
    (mergePatches start list).map record = list.map record := by
  cases list with
  | nil => rfl
  | cons first extras =>
    show _ :: map _ (map _ extras) = _ :: _
    rw [map_map]
    rfl

theorem walkFrame_withEntries {offset size : ℕ} {entries added : List (List UInt8)}
    (hin : offset + size ≤ output.length)
    (hspace : entries.flatten.length + (added.flatten.length + 4) ≤ size)
    (hadded : ∀ e ∈ added, IsFrameEntry e)
    (hwalk : walkFrame (window output offset size) = some entries) :
    walkFrame (window (withEntries output (offset + entries.flatten.length) added) offset size) =
      some (entries ++ added) := by
  obtain ⟨hentries, slack, hslack, -⟩ := Store.Entries.walk_eq_some hwalk
  have hlen : (added.flatten ++ leBytes 0 4).length = added.flatten.length + 4 := by
    rw [length_append, length_leBytes]
  have hend : IsEnd ofLeBytes 4 (leBytes 0 4 ++ slack.drop (added.flatten ++ leBytes 0 4).length) :=
    IsEnd.append ⟨(length_leBytes 0 4).ge, rfl⟩ _
  have hboth : ∀ e ∈ entries ++ added, IsFrameEntry e := fun e he =>
    (List.mem_append.mp he).elim (hentries e) (hadded e)
  rw [withEntries, Store.window_splice_around hin (hlen.symm ▸ hspace), hslack, splice,
    List.take_left, ← List.drop_drop, List.drop_left, ← List.append_assoc, ← List.flatten_append,
    List.append_assoc]
  exact Store.Entries.walk_flatten_append hboth hend

theorem applyPatches_mergePatches (hne : list ≠ [])
    (hin : start + (entriesOf list).flatten.length + 4 ≤ output.length)
    (haddressable : start + (entriesOf list).flatten.length + 4 < 2 ^ 64)
    (hrecords : ∀ r ∈ list, r.record.outputOffset.toNat ≤ output.length) :
    applyPatches ((mergePatches start list).map patch) output =
      .ok (withEntries output start (entriesOf list)) := by
  obtain ⟨first, extras, rfl⟩ := List.exists_cons_of_ne_nil hne
  have hnew : ((entriesOf (first :: extras)).flatten ++ leBytes 0 4).length =
      (entriesOf (first :: extras)).flatten.length + 4 := by
    rw [length_append, length_leBytes]
  have hbound : start + ((entriesOf (first :: extras)).flatten ++ leBytes 0 4).length ≤
      output.length := by omega
  have hlen : (withEntries output start (entriesOf (first :: extras))).length = output.length :=
    Store.length_splice hbound
  have hfirst : (plain start
      ((entriesOf (first :: extras)).flatten ++ leBytes 0 4)).toPatch.Writes
      (withEntries output start (entriesOf (first :: extras))) :=
    writes_plain (by omega) (by omega) (Store.window_splice hbound)
  have hpatches : ((mergePatches start (first :: extras)).map patch).map
      toPatch =
      (plain start ((entriesOf (first :: extras)).flatten ++ leBytes 0 4)).toPatch ::
        extras.map fun r => (plain r.record.outputOffset.toNat []).toPatch := by
    show _ :: map _ (map _ (map _ extras)) = _ :: _
    rw [map_map, map_map]
    rfl
  unfold applyPatches
  rw [hpatches]
  refine Patch.applyAll_eq_target hlen.symm (List.forall_mem_cons.mpr ⟨hfirst, ?_⟩) ?_
  · intro p hp
    obtain ⟨r, hr, rfl⟩ := List.mem_map.mp hp
    have hle := hrecords r (List.mem_cons_of_mem _ hr)
    refine writes_plain r.record.outputOffset.toNat_lt ?_ (List.take_zero ..)
    rw [hlen]
    exact hle
  · intro i hi
    have hfree := hi _ List.mem_cons_self
    rw [SectionPatch.owns_plain (by omega)] at hfree
    exact (Store.getElem?_splice_outside hbound (by omega)).symm

end

section

variable {parse : List UInt8 → Except String ParsedOutput} {output patched : List UInt8}
  {file : ParsedOutput} {ehFrame : ParsedSection} {offset size : UInt64}
  {entries : List (List UInt8)} {candidates : List FdeAddCandidate} {existingFdes : List FdeRecord}
  {resolved : List ResolvedFdeAdd}

/-- What the loop reads, of a parsed output. -/
def ehFrameOutput (file : ParsedOutput) (output : List UInt8) (ehFrame : ParsedSection)
    (offset : UInt64) : EhFrameOutput :=
  { file, output, ehFrameAddress := ehFrame.address, ehFrameOffset := offset.toNat
    ehFrameHdrAddress := (file.sectionByName ".eh_frame_hdr").map ParsedSection.address }

theorem fdeAddPatches_eq_ok {terminatorOffset : ℕ}
    (hsec : file.sectionByName ".eh_frame" = some ehFrame)
    (hrange : ehFrame.fileRange = some (offset, size))
    (hterminator : ehFrameTerminatorOffset (window output offset.toNat size.toNat) =
      some terminatorOffset)
    (h : fdeAddPatches file output candidates existingFdes = .ok resolved) :
    ∃ stop list, (ehFrameOutput file output ehFrame offset).resolveAll
        (offset.toNat + terminatorOffset) candidates = .ok (stop, list) ∧
      stop + 4 < 2 ^ 64 ∧ stop + 4 ≤ offset.toNat + size.toNat ∧
      offset.toNat + size.toNat ≤ output.length ∧
      resolved = mergePatches (offset.toNat + terminatorOffset) list := by
  unfold fdeAddPatches at h
  rw [hsec, orError_some, ok_bind, hrange, orError_some, ok_bind] at h
  dsimp only at h
  split at h
  · cases h
  split at h
  · cases h
  next hbound =>
  rw [hterminator, orError_some, ok_bind] at h
  split at h
  · cases h
  obtain ⟨⟨stop, list⟩, hloop, h⟩ := bind_eq_ok.mp h
  dsimp only at h
  split at h
  · cases h
  next haddressable =>
  split at h
  · cases h
  next hspace =>
  split at h
  · cases h
  obtain ⟨-, -, h⟩ := bind_eq_ok.mp h
  cases h
  exact ⟨stop, list, hloop, by omega, by omega, by omega, rfl⟩

/-- A new frame description: it is that of the object but for its two pointers, is
where its record says, belongs to the CIE of its reference and describes its
function. -/
structure AddedFde (file : ParsedOutput) (output patched : List UInt8) (ehFrame : ParsedSection)
    (offset : UInt64) (position : ℕ) (candidate : FdeAddCandidate) (entry : List UInt8)
    (record : FdeRecord) : Prop where
  outputOffset : record.outputOffset.toNat = position
  size : record.size.toNat = entry.length
  entry_at : window patched position entry.length = entry
  data : ∃ ciePointer pcBegin,
    entry = EhFrameOutput.withPointers candidate.fdeData ciePointer pcBegin
  cie : ∃ cie, outputCieOffsetForFde output candidate.cieReferenceFdeOutputOffset = some cie ∧
    outputCieOffsetForFde patched record.outputOffset = some cie
  target : ∃ address, outputAddressForFileOffset file candidate.targetOutputOffset = some address ∧
    (ehFrame.address.toNat + (position - offset.toNat : ℕ) + fdePcBeginOffset +
      (readI32Le (window entry fdePcBeginOffset 4)).toInt) % 2 ^ 64 =
        (address.toNat + candidate.targetSectionOffset.toNat : ℤ)

theorem AddedFde.of_resolvedAt {position : ℕ} {candidate : FdeAddCandidate} {r : ResolvedFdeAdd}
    (h : (ehFrameOutput file output ehFrame offset).ResolvedAt position candidate r)
    (hentry : window patched position r.patch.data.length = r.patch.data)
    (hin : position + r.patch.data.length ≤ patched.length)
    (haddressable : position + r.patch.data.length < 2 ^ 64) :
    AddedFde file output patched ehFrame offset position candidate r.patch.data r.record := by
  have hout : r.record.outputOffset.toNat = position := h.toNat_outputOffset (by omega)
  have hsize : r.record.size.toNat = r.patch.data.length := by
    rw [h.record]
    exact UInt64.toNat_ofNat_of_lt' (Nat.lt_of_le_of_lt (Nat.le_add_left _ _) haddressable)
  obtain ⟨cie, hcie, hle, hptr⟩ := h.cie
  have hlong := h.long
  refine ⟨hout, hsize, hentry, h.data, ⟨cie, hcie, ?_⟩, h.target⟩
  have hfield : window patched (position + 4) 4 = window r.patch.data 4 4 := by
    rw [← hentry, Store.window_window (by omega)]
  unfold outputCieOffsetForFde
  dsimp only
  rw [hout, hfield, if_neg (by omega), if_neg (by omega)]
  exact congrArg some (by omega)

/-- **The patched section**: a walk finds the old entries and then the new ones,
each of which is in order; nothing else in the output changes. -/
theorem added_fdes_are_walked (hparse : parse output = .ok file)
    (hsec : file.sectionByName ".eh_frame" = some ehFrame)
    (hrange : ehFrame.fileRange = some (offset, size))
    (hwalk : walkFrame (window output offset.toNat size.toNat) = some entries)
    (h : fdeAddPatchesForOutput parse output candidates existingFdes = .ok (.ok resolved)) :
    ∃ patched added, applyPatches (resolved.map ResolvedFdeAdd.patch) output = .ok patched ∧
      walkFrame (window patched offset.toNat size.toNat) = some (entries ++ added) ∧
      added.length = candidates.length ∧ resolved.length = candidates.length ∧
      (∀ k candidate, candidates[k]? = some candidate → ∃ entry r, added[k]? = some entry ∧
        resolved[k]? = some r ∧ AddedFde file output patched ehFrame offset
          (offset.toNat + (entries ++ added.take k).flatten.length) candidate entry r.record) ∧
      patched.length = output.length ∧
      ∀ i, i < offset.toNat + entries.flatten.length ∨
        offset.toNat + (entries ++ added).flatten.length + 4 ≤ i → patched[i]? = output[i]? := by
  cases candidates with
  | nil =>
    cases h
    refine ⟨output, [], rfl, ?_, rfl, rfl, fun k candidate hk => (by cases hk), rfl,
      fun i _ => rfl⟩
    rw [List.append_nil]
    exact hwalk
  | cons first candidates =>
    have hpatches : fdeAddPatches file output (first :: candidates) existingFdes = .ok resolved := by
      unfold fdeAddPatchesForOutput at h
      rw [hparse, ok_bind] at h
      exact Except.ok.inj h
    obtain ⟨stop, list, hloop, haddressable, hspace, hbound, rfl⟩ :=
      fdeAddPatches_eq_ok hsec hrange (ehFrameTerminatorOffset_eq hwalk) hpatches
    obtain ⟨hstop, hlen, hat⟩ := EhFrameOutput.resolveAll_eq_ok hloop
    -- where the entry of each candidate ends
    have hplace : ∀ k r, list[k]? = some r → offset.toNat + entries.flatten.length +
        ((entriesOf list).take k).flatten.length + r.patch.data.length ≤ stop := by
      intro k r hr
      have hentry : (entriesOf list)[k]? = some r.patch.data := by
        rw [entriesOf, List.getElem?_map, hr]
        rfl
      have hle := Store.Entries.length_take_flatten_le hentry
      omega
    have hresolved : ∀ k r, list[k]? = some r → ∃ candidate,
        (first :: candidates)[k]? = some candidate ∧
        (ehFrameOutput file output ehFrame offset).ResolvedAt (offset.toNat +
          entries.flatten.length + ((entriesOf list).take k).flatten.length) candidate r := by
      intro k r hr
      obtain ⟨hk, -⟩ := List.getElem?_eq_some_iff.mp hr
      have hcandidate : (first :: candidates)[k]? = some _ :=
        List.getElem?_eq_getElem (hlen ▸ hk)
      obtain ⟨r', hr', hresolvedAt⟩ := hat k _ hcandidate
      obtain rfl : r' = r := Option.some.inj (hr'.symm.trans hr)
      exact ⟨_, hcandidate, hresolvedAt⟩
    have hadded : ∀ e ∈ entriesOf list, IsFrameEntry e := by
      intro e he
      obtain ⟨r, hr, rfl⟩ := List.mem_map.mp he
      obtain ⟨k, hk⟩ := List.getElem?_of_mem hr
      obtain ⟨candidate, -, hresolvedAt⟩ := hresolved k r hk
      exact hresolvedAt.entry
    have hrecords : ∀ r ∈ list, r.record.outputOffset.toNat ≤ output.length := by
      intro r hr
      obtain ⟨k, hk⟩ := List.getElem?_of_mem hr
      obtain ⟨candidate, -, hresolvedAt⟩ := hresolved k r hk
      have hle := hplace k r hk
      rw [hresolvedAt.toNat_outputOffset (by omega)]
      omega
    have hne : list ≠ [] := List.ne_nil_of_length_pos (hlen ▸ Nat.zero_lt_succ _)
    have happly : applyPatches ((mergePatches (offset.toNat + entries.flatten.length) list).map
        ResolvedFdeAdd.patch) output =
        .ok (withEntries output (offset.toNat + entries.flatten.length) (entriesOf list)) :=
      applyPatches_mergePatches hne (by omega) (by omega) hrecords
    have hnew : ((entriesOf list).flatten ++ leBytes 0 4).length =
        (entriesOf list).flatten.length + 4 := by
      rw [List.length_append, length_leBytes]
    have hinside : offset.toNat + entries.flatten.length +
        ((entriesOf list).flatten ++ leBytes 0 4).length ≤ output.length := by omega
    have hlengthPatched : (withEntries output (offset.toNat + entries.flatten.length)
        (entriesOf list)).length = output.length := Store.length_splice hinside
    have hrecord : (mergePatches (offset.toNat + entries.flatten.length) list).map
        ResolvedFdeAdd.record = list.map ResolvedFdeAdd.record := record_mergePatches
    refine ⟨_, entriesOf list, happly, walkFrame_withEntries hbound (by omega) hadded hwalk,
      ?_, ?_, ?_, hlengthPatched, ?_⟩
    · rw [entriesOf, List.length_map, hlen]
    · rw [← hlen, ← List.length_map, hrecord, List.length_map]
    · intro k candidate hk
      obtain ⟨r, hr, hresolvedAt⟩ := hat k candidate hk
      have hle := hplace k r hr
      have hentry : (entriesOf list)[k]? = some r.patch.data := by
        rw [entriesOf, List.getElem?_map, hr]
        rfl
      have hmerged : ((mergePatches (offset.toNat + entries.flatten.length) list).map
          ResolvedFdeAdd.record)[k]? = some r.record := by
        rw [hrecord, List.getElem?_map, hr]
        rfl
      rw [List.getElem?_map] at hmerged
      obtain ⟨merged, hmerged, hsame⟩ := Option.map_eq_some_iff.mp hmerged
      refine ⟨_, merged, hentry, hmerged, ?_⟩
      rw [hsame, List.flatten_append, List.length_append, ← Nat.add_assoc]
      refine AddedFde.of_resolvedAt hresolvedAt ?_ (by omega) (by omega)
      rw [withEntries, Store.window_splice_inside hinside (by omega)]
      exact Store.Entries.window_flatten_append hentry
    · intro i hi
      rw [List.flatten_append, List.length_append] at hi
      exact Store.getElem?_splice_outside hinside (by omega)

end

/-! ### Two functions more -/

/-- A frame description, and zeros behind it. -/
def frameOutput : List UInt8 :=
  frameFile (List.replicate 16 0x90) []
    (commonFrame ++ frameEntry 12 (-4112) ++ List.replicate 40 0)

def outputFile : ParsedOutput :=
  [⟨[], 0, none⟩, ⟨".text".toList, 4096, some (64, 16)⟩, ⟨".eh_frame_hdr".toList, 4352, some (80, 0)⟩,
    ⟨".eh_frame".toList, 8192, some (80, 64)⟩, ⟨".shstrtab".toList, 0, some (144, 41)⟩]

/-- The frame descriptions of three functions, four bytes each. -/
def objectFrame : EhFrameInput where
  sectionIndex := 2
  data := commonFrame ++ frameEntry 12 0 ++ frameEntry 28 0 ++ frameEntry 44 0
  relas := [16, 32, 48]
  relocations := [16, 32, 48].map fun offset =>
    ⟨offset, true, .symbol (some (some 1, .ofNat (offset / 4 - 4))), 0⟩

/-- Those of the second and the third. -/
def newFdes : List FdeAddCandidate :=
  ((objectFrame.fdeCandidatesForInputBytes.toOption.getD []).drop 1).map fun candidate =>
    candidate.placed "a.o".toList "a.o".toList 64 88

set_option maxRecDepth 8000 in
theorem two_fdes_are_walked :
    ∃ resolved patched added, fdeAddPatchesForOutput elfSections frameOutput newFdes [] =
        .ok (.ok resolved) ∧
      applyPatches (resolved.map ResolvedFdeAdd.patch) frameOutput = .ok patched ∧
      walkFrame (window patched 80 64) = some ([commonFrame, frameEntry 12 (-4112)] ++ added) ∧
      added.length = 2 := by
  have hparse : elfSections frameOutput = .ok outputFile := by rfl
  have hwalk : walkFrame (window frameOutput 80 64) = some [commonFrame, frameEntry 12 (-4112)] := by
    rfl
  obtain ⟨resolved, hacc⟩ : ∃ resolved, fdeAddPatchesForOutput elfSections frameOutput newFdes [] =
      .ok (.ok resolved) := ⟨_, rfl⟩
  obtain ⟨patched, added, happly, hpatched, hadded, -⟩ :=
    added_fdes_are_walked hparse rfl rfl hwalk hacc
  exact ⟨resolved, patched, added, hacc, happly, hpatched, hadded⟩

end Sld.Incremental
