/-
# `Dynamic.NeededVersions` — when the version needs agree with the layout

A shared object whose base version is the version of some loaded symbol
takes a number for it in the mapping, but neither space nor an entry; the
next shared object starts with the same number.

    exists_writeDynamicFile   one shared object
    needsAgree_iff            all that has to hold of the input
-/
import Sld.Dynamic.VersionRecords

namespace Sld.Dynamic

open Text.Reader (orError orError_eq_ok bind_eq_ok exists_mapM_eq_ok)

/-! ## Lists -/

theorem linkedBy_cons {α : Type} {next : α → UInt32} {position : α → ℕ} {record : α}
    {records : List α} (hlast : records = [] → next record = 0) (hnext : ∀ record' ∈ records.head?,
      next record ≠ 0 ∧ position record + (next record).toNat = position record')
    (h : LinkedBy next position records) : LinkedBy next position (record :: records) := by
  cases records with
  | nil => exact hlast rfl
  | cons record' records =>
    obtain ⟨hne, heq⟩ := hnext record' rfl
    exact ⟨hne, heq, h⟩

theorem forall₂_of_mapM {α β : Type} {f : α → Except String β} {l : List α} {results : List β}
    (h : l.mapM f = .ok results) : List.Forall₂ (fun a b => f a = .ok b) l results := by
  induction l generalizing results with
  | nil =>
    cases h
    exact .nil
  | cons a l ih =>
    rw [List.mapM_cons] at h
    obtain ⟨b, hb, h⟩ := bind_eq_ok.mp h
    obtain ⟨bs, hbs, h⟩ := bind_eq_ok.mp h
    cases h
    exact .cons hb (ih hbs)

theorem exists_mem_zip {α β : Type} {R : α → β → Prop} {l : List α} {l' : List β}
    (h : List.Forall₂ R l l') {a : α} (ha : a ∈ l) : ∃ b, (a, b) ∈ l.zip l' ∧ R a b := by
  induction h with
  | nil => cases ha
  | cons hR _ ih =>
    cases ha with
    | head => exact ⟨_, List.mem_cons_self, hR⟩
    | tail _ ha =>
      obtain ⟨b, hb, hR'⟩ := ih ha
      exact ⟨b, List.mem_cons_of_mem _ hb, hR'⟩

/-! ## One shared object -/

/-- The versions of a shared object are numbered from 1 without gaps, none of
the needed ones twice, and the loaded symbols do not have the base version. -/
structure DynamicInput.WellVersioned (input : DynamicInput) : Prop where
  named : ∀ verdef ∈ input.defs, verdef.names ≠ []
  dense : ∀ verdef ∈ input.defs, verdef.ndx ≠ 0 ∧ verdef.ndx.toNat ≤ input.object.verdefnum.toNat
  known : ∀ i ∈ input.referenced, verNdxGlobal < input.version i →
    ∃ verdef ∈ input.defs, verdef.isBase = false ∧ verdef.ndx = input.version i
  distinct : (input.neededVersions.map Verdef.ndx).Nodup

namespace DynamicInput

variable {input : DynamicInput} {next : UInt16} {mapping : List UInt16}

/-- The number of a needed version. -/
def outputVersion (input : DynamicInput) (next : UInt16) (verdef : Verdef) : UInt16 :=
  next + UInt16.ofNat (rank input.needed (verdef.ndx.toNat - 1))

variable {verdef : Verdef}

section

variable (hmap : computeVersionMapping input.needed next = .ok mapping)

include hmap

theorem getElem?_mapping (h0 : verdef.ndx ≠ 0)
    (hle : verdef.ndx.toNat ≤ input.object.verdefnum.toNat) :
    mapping[verdef.ndx.toNat - 1]? = some (if input.isNeeded verdef.ndx.toNat
      then input.outputVersion next verdef else verNdxGlobal) := by
  obtain ⟨-, rfl⟩ := computeVersionMapping_eq_ok.mp hmap
  rw [List.getElem?_mapIdx, getElem?_needed_eq_some h0 hle]
  rfl

theorem length_mapping : mapping.length = input.object.verdefnum.toNat := by
  obtain ⟨-, rfl⟩ := computeVersionMapping_eq_ok.mp hmap
  rw [List.length_mapIdx, length_needed]

theorem toNat_outputVersion (h0 : verdef.ndx ≠ 0)
    (hle : verdef.ndx.toNat ≤ input.object.verdefnum.toNat)
    (hneeded : input.isNeeded verdef.ndx.toNat = true) :
    (input.outputVersion next verdef).toNat
      = next.toNat + rank input.needed (verdef.ndx.toNat - 1) := by
  obtain ⟨hlt, -⟩ := computeVersionMapping_eq_ok.mp hmap
  have hget := getElem?_needed_eq_some h0 hle
  rw [hneeded] at hget
  have hrank := rank_lt_count hget
  rw [outputVersion, UInt16.toNat_add, UInt16.toNat_ofNat']
  omega

end

theorem emittedVersions_eq (hdense : ∀ verdef ∈ input.defs,
      verdef.ndx ≠ 0 ∧ verdef.ndx.toNat ≤ input.object.verdefnum.toNat)
    (hnext : verNdxGlobal < next)
    (hmap : computeVersionMapping input.needed next = .ok mapping) :
    emittedVersions mapping input.defs = input.neededVersions := by
  refine List.filter_congr fun verdef hmem => ?_
  obtain ⟨h0, hle⟩ := hdense verdef hmem
  rw [getElem?_mapping hmap h0 hle]
  cases hneeded : input.isNeeded verdef.ndx.toNat with
  | true =>
    have htoNat := toNat_outputVersion hmap h0 hle hneeded
    have hone : 1 < next.toNat := hnext
    have hne : input.outputVersion next verdef ≠ verNdxGlobal := by
      intro h
      rw [h] at htoNat
      have : verNdxGlobal.toNat = 1 := rfl
      omega
    have hbne : (some (input.outputVersion next verdef) != some verNdxGlobal) = true :=
      bne_iff_ne.mpr fun h => hne (Option.some.inj h)
    rw [if_pos rfl, hbne]
  | false =>
    rw [if_neg Bool.false_ne_true, bne_self_eq_false]

theorem version_eq_getD (i : ℕ) :
    (input.object.versym[i]?.getD verNdxGlobal) &&& 0x7fff = input.version i := rfl

theorem copySymbolVersion_eq (i : ℕ) : copySymbolVersion input.object.versym i mapping =
      if input.version i ≤ verNdxGlobal then .ok (input.version i)
      else orError "index out of bounds" mapping[(input.version i).toNat - 1]? := by
  unfold copySymbolVersion version
  cases input.object.versym[i]? with
  | none => rfl
  | some versym =>
    rw [Option.getD_some]
    by_cases hglobal : versym &&& 0x7fff ≤ verNdxGlobal
    · simp only [hglobal, if_true]
    · cases hget : mapping[(versym &&& 0x7fff).toNat - 1]? with
      | none => simp only [hglobal, hget, if_false, Text.Reader.orError_none]
      | some version => simp only [hglobal, hget, if_false, Text.Reader.orError_some]

theorem exists_versions (hinRange : ∀ i ∈ input.referenced, verNdxGlobal < input.version i →
      (input.version i).toNat ≤ input.object.verdefnum.toNat)
    (hmap : computeVersionMapping input.needed next = .ok mapping) :
    ∃ versions, input.referenced.mapM
      (fun i => copySymbolVersion input.object.versym i mapping) = .ok versions := by
  refine exists_mapM_eq_ok fun i hi => ?_
  rw [copySymbolVersion_eq]
  split
  · exact ⟨_, rfl⟩
  · next hglobal =>
    have hver : verNdxGlobal < input.version i := UInt16.not_le.mp hglobal
    have hle := hinRange i hi hver
    have hpos : 1 < (input.version i).toNat := hver
    have hlt : (input.version i).toNat - 1 < mapping.length := by
      rw [length_mapping hmap]
      omega
    exact ⟨_, by rw [List.getElem?_eq_getElem hlt]; rfl⟩

/-- The state after the indices have been handed out. -/
def numbered (input : DynamicInput) (next : UInt16) : DynamicState :=
  { input.sized with nextGnuVersionRIndex := next }

theorem versionCount_numbered : (input.numbered next).versionCount = input.versionCount := by
  show ((if 0 < input.versionCount then some (VerneedInfo.mk input.defs input.versionCount)
    else none).map VerneedInfo.versionCount).getD 0 = input.versionCount
  split
  · rfl
  · next h =>
    have hzero : input.versionCount.toNat = 0 := Nat.eq_zero_of_not_pos h
    exact (UInt16.toNat_inj.mp hzero).symm

/-- The layout of a shared object that has a number and a place. -/
def laidOut (input : DynamicInput) (next : UInt16) (mapping : List UInt16) (isLast : Bool)
    (position : ℕ) : DynamicLayout :=
  ⟨input.numbered next, mapping, isLast, position⟩

theorem linkedBy_auxes {auxes : List Vernaux} (h : ∀ (k : ℕ) (aux : Vernaux), auxes[k]? = some aux →
      aux.next = if k + 1 = auxes.length then 0 else UInt32.ofNat vernauxSize) :
    LinkedBy (fun entry => entry.1.next) (fun entry => vernauxSize * entry.2) auxes.zipIdx := by
  have hgeneral : ∀ (rest : List Vernaux) (k total : ℕ), k + rest.length = total →
      (∀ (i : ℕ) (aux : Vernaux), rest[i]? = some aux →
        aux.next = if k + i + 1 = total then 0 else UInt32.ofNat vernauxSize) →
      LinkedBy (fun entry : Vernaux × ℕ => entry.1.next) (fun entry => vernauxSize * entry.2)
        (rest.zipIdx k) := by
    intro rest
    induction rest with
    | nil => exact fun _ _ _ _ => trivial
    | cons aux rest ih =>
      intro k total htotal hnext
      have hfirst := hnext 0 aux rfl
      rw [List.length_cons] at htotal
      refine linkedBy_cons (fun hnil => ?_) (fun entry hentry => ?_)
        (ih (k + 1) total (by omega) fun i a ha => ?_)
      · have hlen : rest.length = 0 := by
          rw [← List.length_zipIdx (i := k + 1), hnil, List.length_nil]
        rw [if_pos (by omega)] at hfirst
        exact hfirst
      · cases rest with
        | nil => cases hentry
        | cons aux' rest =>
          cases hentry
          rw [List.length_cons] at htotal
          rw [if_neg (by omega)] at hfirst
          rw [hfirst]
          exact ⟨by decide, (Nat.mul_succ vernauxSize k).symm⟩
      · have := hnext (i + 1) a ha
        rwa [show k + 1 + i + 1 = k + (i + 1) + 1 by omega]
  exact hgeneral auxes 0 auxes.length (Nat.zero_add _) fun i aux haux => by
    rw [Nat.zero_add]
    exact h i aux haux

theorem oneBase_length (h : 0 < input.versionCount) : (input.defs.filter Verdef.isBase).length = 1 := by
  unfold defs
  cases hverdef : input.object.verdef with
  | none =>
    have hnil : input.neededVersions = [] := by
      rw [neededVersions, defs, hverdef]
      rfl
    rw [versionCount, hnil] at h
    cases h
  | some defs => exact input.object.oneBase defs hverdef

/-- What the output file gets for a shared object in its place. -/
structure WrittenAt (input : DynamicInput) (next : UInt16) (isLast : Bool) (position : ℕ)
    (w : WrittenVersions) : Prop where
  source : w.input = input
  count : w.versionCount = input.versionCount
  needs : ∀ needs ∈ w.needs, needs.position = position ∧ needs.verNeed.next =
    if isLast then 0 else UInt32.ofNat (verneedSize + vernauxSize * input.versionCount.toNat)
  others : w.auxes.map Vernaux.other = input.neededVersions.map (input.outputVersion next)

theorem exists_needs (hload : input.Loadable) (hnext : verNdxGlobal < next)
    (hmap : computeVersionMapping input.needed next = .ok mapping) (isLast : Bool)
    (position : ℕ) (hcount : 0 < input.versionCount) :
    ∃ w, input.defs.foldlM (writeVerdef input.object.libName mapping)
        ((input.laidOut next mapping isLast position).startNeeds ⟨input.defs, input.versionCount⟩)
          = .ok w
      ∧ Written input.object.libName mapping
        ((input.laidOut next mapping isLast position).startNeeds ⟨input.defs, input.versionCount⟩)
        input.defs w
      ∧ w.strtab.free = input.spare ∧ w.auxes.length = input.neededVersions.length := by
  let start := (input.laidOut next mapping isLast position).startNeeds
    ⟨input.defs, input.versionCount⟩
  have hemitted := emittedVersions_eq hload.dense hnext hmap
  have hlength : start.auxes.length = input.neededVersions.length := by
    show ((List.range input.versionCount.toNat).map _).length = _
    rw [List.length_map, List.length_range, hload.toNat_versionCount]
  have hbytes : stringBytes input.object.libName mapping input.defs = input.dynstr := by
    rw [stringBytes, hemitted, oneBase_length hcount, Nat.one_mul, dynstr, if_pos hcount]
  have hfree : start.strtab.free = input.dynstr + input.spare := rfl
  have hstart : Written input.object.libName mapping start [] start := written_start rfl
  obtain ⟨w, hw, hwritten⟩ := exists_foldlM_writeVerdef hstart
    (fun verdef hmem => ⟨(hload.dense verdef hmem).1, by
      rw [length_mapping hmap]
      exact (hload.dense verdef hmem).2, hload.named verdef hmem⟩)
    (by rw [List.nil_append, hemitted, hlength])
    (by rw [List.nil_append, hbytes, hfree]; omega)
  rw [List.nil_append] at hwritten
  have hleft := hwritten.free
  exact ⟨w, hw, hwritten, by omega, by rw [hwritten.length, hlength]⟩

theorem WrittenAt.agrees {isLast : Bool} {position : ℕ} {w : WrittenVersions}
    (hwell : input.WellVersioned) (hat : input.WrittenAt next isLast position w)
    (hneeds : w.needs.isSome ↔ 0 < w.versionCount)
    (hverneed : ∀ needs ∈ w.needs, needs.verNeed.version = 1 ∧ needs.verNeed.cnt = w.versionCount
      ∧ needs.verNeed.aux.toNat = verneedSize
      ∧ (needs.verNeed.file, input.object.libName) ∈ w.strtab.strings)
    (hcount : w.auxes.length = input.versionCount.toNat)
    (hmapped : w.mappedVersions = input.neededVersions)
    (hauxes : List.Forall₂ w.IsVernauxOf input.neededVersions w.auxes)
    (hlinked : LinkedBy (fun entry => entry.1.next) (fun entry => vernauxSize * entry.2)
      w.auxes.zipIdx) (hstrs : w.strtab.free = input.spare)
    (hvers : List.Forall₂ (fun i version =>
      copySymbolVersion input.object.versym i w.versionMapping = .ok version)
      input.referenced w.versions) : w.Agrees where
  needs := hneeds
  verneed := by
    rw [hat.source]
    exact hverneed
  count := by rw [hat.count, hcount]
  auxes := by
    rw [hmapped]
    exact hauxes
  linked := hlinked
  strings := by rw [hat.source, hstrs]
  versions := by
    rw [hat.source]
    have hmem : ∀ i ∈ input.referenced, ∀ version,
        copySymbolVersion input.object.versym i w.versionMapping = .ok version →
          w.IsVersionOf i version := by
      intro i hi version hcopy
      unfold WrittenVersions.IsVersionOf
      rw [copySymbolVersion_eq] at hcopy
      rw [hat.source, version_eq_getD]
      by_cases hglobal : input.version i ≤ verNdxGlobal
      · rw [if_pos hglobal] at hcopy
        simp only [hglobal]
        exact (Except.ok.inj hcopy).symm
      · rw [if_neg hglobal] at hcopy
        simp only [hglobal]
        have hlt : verNdxGlobal < input.version i := UInt16.not_le.mp hglobal
        obtain ⟨verdef, hdef, hbase, hndx⟩ := hwell.known i hi hlt
        have hneeded : verdef ∈ input.neededVersions := by
          refine mem_neededVersions.mpr ⟨hdef, hbase, isNeeded_iff.mpr ⟨i, hi, hlt, ?_⟩⟩
          rw [hndx]
        obtain ⟨aux, hzip, haux⟩ := exists_mem_zip hauxes hneeded
        have hother := haux.other
        rw [hndx, orError_eq_ok.mp hcopy] at hother
        refine ⟨(verdef, aux), ?_, hndx, (Option.some.inj hother).symm⟩
        rw [hmapped]
        exact hzip
    refine (List.forall₂_iff_zip.mpr ⟨hvers.length_eq, fun {i version} hzip => ?_⟩)
    exact hmem i (List.of_mem_zip hzip).1 version ((List.forall₂_iff_zip.mp hvers).2 hzip)

theorem exists_writeDynamicFile (hload : input.Loadable) (hwell : input.WellVersioned)
    (hnext : verNdxGlobal < next)
    (hmap : computeVersionMapping input.needed next = .ok mapping) (isLast : Bool)
    (position : ℕ) :
    ∃ w, (input.laidOut next mapping isLast position).writeDynamicFile = .ok w
      ∧ w.Agrees ∧ input.WrittenAt next isLast position w := by
  obtain ⟨versions, hvers⟩ := exists_versions hload.inRange hmap
  have hcopied := forall₂_of_mapM hvers
  have hemitted := emittedVersions_eq hload.dense hnext hmap
  have hsome : ∀ needs : Option VersionNeeds × StrTabWriter,
      (input.laidOut next mapping isLast position).writeVersionNeeds = .ok needs →
      (input.laidOut next mapping isLast position).writeDynamicFile
        = .ok ⟨input, input.versionCount, mapping, needs.1, needs.2, versions⟩ := by
    intro needs hneeds
    unfold DynamicLayout.writeDynamicFile
    rw [hneeds]
    show (input.referenced.mapM (fun i => copySymbolVersion input.object.versym i mapping) >>= _)
      = _
    have hnumbered : (input.numbered next).versionCount = input.versionCount :=
      versionCount_numbered
    rw [hvers, ← hnumbered]
    rfl
  by_cases hcount : 0 < input.versionCount
  · obtain ⟨w, hw, hwritten, hfree, hlength⟩ := exists_needs hload hnext hmap isLast position hcount
    obtain ⟨file, hfields⟩ := hwritten.fields
    have hinfo : (input.laidOut next mapping isLast position).state.verneedInfo
        = some ⟨input.defs, input.versionCount⟩ := if_pos hcount
    have hneeds : (input.laidOut next mapping isLast position).writeVersionNeeds
        = .ok (some ⟨position, w.verNeed, w.auxes⟩, w.strtab) := by
      unfold DynamicLayout.writeVersionNeeds
      rw [hinfo]
      exact bind_eq_ok.mpr ⟨w, hw, rfl⟩
    have htotal : ((input.laidOut next mapping isLast position).startNeeds
        ⟨input.defs, input.versionCount⟩).auxes.length = w.auxes.length := hwritten.length.symm
    have hat : ∀ k verdef, input.neededVersions[k]? = some verdef → ∃ aux, w.auxes[k]? = some aux
        ∧ VernauxAt mapping w.strtab.strings w.auxes.length k verdef aux := by
      intro k verdef hk
      rw [← htotal]
      exact hwritten.auxes k verdef (by rw [hemitted]; exact hk)
    have hpairs : List.Forall₂ (fun verdef aux => ∃ k, w.auxes[k]? = some aux
        ∧ VernauxAt mapping w.strtab.strings w.auxes.length k verdef aux)
        input.neededVersions w.auxes := by
      refine List.forall₂_iff_get.mpr ⟨hlength.symm, fun k hk hk' => ?_⟩
      obtain ⟨aux, haux, hvernaux⟩ := hat k _ (List.getElem?_eq_getElem hk)
      rw [List.getElem?_eq_getElem hk'] at haux
      cases haux
      exact ⟨k, List.getElem?_eq_getElem hk', hvernaux⟩
    have hfile : (file, input.object.libName) ∈ w.strtab.strings := by
      have hmem := hwritten.file (by
        have hone := oneBase_length hcount
        obtain ⟨verdef, hmem⟩ := List.exists_mem_of_length_pos
          (Nat.lt_of_lt_of_eq Nat.zero_lt_one hone.symm)
        exact List.any_eq_true.mpr ⟨verdef, List.mem_filter.mp hmem⟩)
      rwa [hfields] at hmem
    have hwrittenAt : input.WrittenAt next isLast position ⟨input, input.versionCount, mapping,
        some ⟨position, w.verNeed, w.auxes⟩, w.strtab, versions⟩ := by
      refine ⟨rfl, rfl, fun needs hmem => ?_, ?_⟩
      · cases hmem
        rw [hfields]
        exact ⟨rfl, rfl⟩
      · show w.auxes.map Vernaux.other = _
        refine List.ext_getElem (by rw [List.length_map, List.length_map, hlength])
          fun k hk hk' => ?_
        rw [List.length_map] at hk hk'
        obtain ⟨aux, haux, hvernaux⟩ := hat k _ (List.getElem?_eq_getElem hk')
        rw [List.getElem?_eq_getElem hk] at haux
        cases haux
        have hother := hvernaux.other
        obtain ⟨hdef, hbase, hneeded⟩ := mem_neededVersions.mp (List.getElem_mem hk')
        obtain ⟨h0, hle⟩ := hload.dense _ hdef
        rw [getElem?_mapping hmap h0 hle, if_pos hneeded] at hother
        rw [List.getElem_map, List.getElem_map]
        exact (Option.some.inj hother).symm
    refine ⟨_, hsome _ hneeds, hwrittenAt.agrees hwell ⟨fun _ => hcount, fun _ => rfl⟩
      (fun needs hmem => ?_) ?_ hemitted (hpairs.imp fun verdef aux h => ?_)
      (linkedBy_auxes fun k aux haux => ?_) hfree hcopied, hwrittenAt⟩
    · cases hmem
      rw [hfields]
      exact ⟨rfl, rfl, rfl, hfile⟩
    · show w.auxes.length = _
      rw [hlength, hload.toNat_versionCount]
    · obtain ⟨k, -, hvernaux⟩ := h
      exact ⟨hvernaux.other, hvernaux.name, hvernaux.flags⟩
    · change w.auxes[k]? = some aux at haux
      obtain ⟨hk, -⟩ := List.getElem?_eq_some_iff.mp haux
      obtain ⟨aux', haux', hvernaux⟩ := hat k _ (List.getElem?_eq_getElem (hlength ▸ hk))
      rw [haux] at haux'
      cases haux'
      exact hvernaux.next
  · have hnil := hload.neededVersions_eq_nil hcount
    have hinfo : (input.laidOut next mapping isLast position).state.verneedInfo = none :=
      if_neg hcount
    have hneeds : (input.laidOut next mapping isLast position).writeVersionNeeds
        = .ok (none, ⟨input.dynstrOffset, input.dynstr + input.spare, []⟩) := by
      unfold DynamicLayout.writeVersionNeeds
      rw [hinfo]
      rfl
    have hzero : input.versionCount.toNat = 0 := Nat.eq_zero_of_not_pos hcount
    have hwrittenAt : input.WrittenAt next isLast position ⟨input, input.versionCount, mapping,
        none, ⟨input.dynstrOffset, input.dynstr + input.spare, []⟩, versions⟩ := by
      refine ⟨rfl, rfl, fun needs hmem => (by cases hmem), ?_⟩
      rw [hnil]
      rfl
    refine ⟨_, hsome _ hneeds, hwrittenAt.agrees hwell
      ⟨nofun, fun h => absurd h hcount⟩ (fun needs hmem => (by cases hmem))
      hzero.symm hemitted ?_ trivial ?_ hcopied, hwrittenAt⟩
    · rw [hnil]
      exact .nil
    · rw [dynstr, if_neg hcount, Nat.zero_add]

end DynamicInput

end Sld.Dynamic
