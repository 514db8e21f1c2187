/-
# `Dynamic.VersionRecords` — the records of one shared object

    sizeDynamic_eq_ok         what is reserved, and when
-/
import Sld.Dynamic.VersionCounts

namespace Sld.Dynamic

open Text.Reader (orError_some bind_eq_ok ok_bind)
open Verdef (isBase nameSize)

/-! ## Sizes -/

namespace DynamicInput

variable (input : DynamicInput)

def needed : List Bool :=
  (List.range input.object.verdefnum.toNat).map fun k => input.isNeeded (k + 1)

/-- The shared object goes through the checks of the first two passes. -/
structure Loadable : Prop where
  named : ∀ verdef ∈ input.defs, verdef.names ≠ []
  dense : ∀ verdef ∈ input.defs, verdef.ndx ≠ 0 ∧ verdef.ndx.toNat ≤ input.object.verdefnum.toNat
  inRange : ∀ i ∈ input.referenced, verNdxGlobal < input.version i →
    (input.version i).toNat ≤ input.object.verdefnum.toNat
  count : input.neededVersions.length < 2 ^ 16

def versionCount : UInt16 := UInt16.ofNat input.neededVersions.length

/-- The bytes for the names of the versions, and of the object. -/
def dynstr : ℕ :=
  if 0 < input.versionCount then
    (input.neededVersions.map Verdef.nameSize).sum + (input.object.libName.length + 1)
  else 0

/-- What the passes find. -/
def sized : DynamicState where
  input := input
  symbolVersionsNeeded := input.needed
  verneedInfo := if 0 < input.versionCount then some ⟨input.defs, input.versionCount⟩ else none
  dynstr := input.dynstr
  nextGnuVersionRIndex := 0

variable {input}

theorem length_needed : input.needed.length = input.object.verdefnum.toNat := by
  rw [needed, List.length_map, List.length_range]

theorem getElem?_needed_eq_some {ndx : UInt16} (h0 : ndx ≠ 0)
    (hle : ndx.toNat ≤ input.object.verdefnum.toNat) :
    input.needed[ndx.toNat - 1]? = some (input.isNeeded ndx.toNat) := by
  have hpos := pos_of_ne_zero h0
  have hsucc : ndx.toNat - 1 + 1 = ndx.toNat := by omega
  rw [needed, getElem?_needed, if_pos (by omega), hsucc]

theorem countedVersions_needed (hdense : ∀ verdef ∈ input.defs,
      verdef.ndx ≠ 0 ∧ verdef.ndx.toNat ≤ input.object.verdefnum.toNat) :
    countedVersions input.needed input.defs = input.neededVersions := by
  refine List.filter_congr fun verdef hmem => ?_
  obtain ⟨h0, hle⟩ := hdense verdef hmem
  rw [getElem?_needed_eq_some h0 hle]
  cases verdef.isBase <;> cases input.isNeeded verdef.ndx.toNat <;> rfl

theorem Loadable.toNat_versionCount (h : input.Loadable) :
    input.versionCount.toNat = input.neededVersions.length := by
  rw [versionCount, UInt16.toNat_ofNat', Nat.mod_eq_of_lt h.count]

theorem Loadable.neededVersions_eq_nil (h : input.Loadable) (h0 : ¬ 0 < input.versionCount) :
    input.neededVersions = [] := by
  have hcount := h.toNat_versionCount
  have : input.versionCount.toNat = 0 := Nat.eq_zero_of_not_pos h0
  exact List.eq_nil_of_length_eq_zero (by omega)

theorem getVersionNames_eq_ok : input.object.getVersionNames = .ok () ↔
    ∀ verdef ∈ input.defs, verdef.names ≠ [] ∧ verdef.ndx.toNat ≤ input.object.verdefnum.toNat := by
  rw [SharedObject.getVersionNames, List.forM_eq_forM, ← defs]
  induction input.defs with
  | nil => exact ⟨fun _ verdef hmem => absurd hmem List.not_mem_nil, fun _ => rfl⟩
  | cons verdef defs ih =>
    rw [List.forM_cons, List.forall_mem_cons, ← ih, bind_eq_ok]
    constructor
    · rintro ⟨⟨⟩, hfirst, hrest⟩
      refine ⟨?_, hrest⟩
      split at hfirst
      · cases hfirst
      · split at hfirst
        · cases hfirst
        · next hnames hle => exact ⟨hnames, Nat.le_of_not_lt hle⟩
    · rintro ⟨⟨hnames, hle⟩, hrest⟩
      exact ⟨(), by rw [if_neg hnames, if_neg (Nat.not_lt.mpr hle)], hrest⟩

theorem any_isBase {defs : List Verdef} (h : input.object.verdef = some defs) :
    defs.any isBase = true := by
  have hone := input.object.oneBase defs h
  obtain ⟨verdef, hmem⟩ := List.exists_mem_of_length_pos (Nat.lt_of_lt_of_eq Nat.zero_lt_one hone.symm)
  obtain ⟨hmem, hbase⟩ := List.mem_filter.mp hmem
  exact List.any_eq_true.mpr ⟨verdef, hmem, hbase⟩

variable {state : DynamicState}

theorem finaliseSizesDynamic_eq_ok (hnamed : ∀ verdef ∈ input.defs, verdef.names ≠ [])
    (hle : ∀ verdef ∈ input.defs, verdef.ndx.toNat ≤ input.object.verdefnum.toNat) :
    finaliseSizesDynamic input input.needed = .ok state ↔
      (∀ verdef ∈ input.defs, verdef.ndx ≠ 0) ∧ input.neededVersions.length < 2 ^ 16
        ∧ state = input.sized := by
  unfold finaliseSizesDynamic
  cases hverdef : input.object.verdef with
  | none =>
    have hdefs : input.defs = [] := by rw [defs, hverdef]; rfl
    have hneeded : input.neededVersions = [] := by rw [neededVersions, hdefs]; rfl
    have hsized : input.sized = ⟨input, input.needed, none, 0, 0⟩ := by
      rw [sized, dynstr, versionCount, hneeded]
      rfl
    rw [hsized, hdefs, hneeded]
    constructor
    · intro h
      exact ⟨fun d hd => absurd hd List.not_mem_nil, Nat.two_pow_pos 16, (Except.ok.inj h).symm⟩
    · rintro ⟨-, -, rfl⟩
      rfl
  | some verdefs =>
    have hdefs : input.defs = verdefs := by rw [defs, hverdef]; rfl
    have hsizeable : (∀ verdef ∈ verdefs, Sizeable input.needed verdef)
        ↔ ∀ verdef ∈ input.defs, verdef.ndx ≠ 0 := by
      rw [hdefs]
      refine forall₂_congr fun verdef hmem => ⟨Sizeable.ndx, fun h0 => ⟨h0, fun _ => ?_, fun _ => ?_⟩⟩
      · rw [length_needed]
        exact hle verdef (hdefs ▸ hmem)
      · exact hnamed verdef (hdefs ▸ hmem)
    rw [← hsizeable]
    by_cases hndx : ∀ verdef ∈ verdefs, Sizeable input.needed verdef
    · have hcounted : countedVersions input.needed verdefs = input.neededVersions := by
        rw [← countedVersions_needed fun d hd => ⟨hsizeable.mp hndx d hd, hle d hd⟩, hdefs]
      have hafter : (VersionSizes.after ⟨0, 0, 0⟩ input.object.libName input.needed verdefs)
          = ⟨input.versionCount, input.object.libName.length + 1,
            (input.neededVersions.map nameSize).sum⟩ := by
        rw [VersionSizes.after, hcounted, any_isBase hverdef, if_pos rfl, Nat.zero_add,
          UInt16.zero_add]
        rfl
      have hzero : (VersionSizes.versionCount ⟨0, 0, 0⟩).toNat + input.neededVersions.length
          = input.neededVersions.length := Nat.zero_add _
      have hfinish : input.neededVersions.length < 2 ^ 16 → (if 0 < input.versionCount then
            (pure ⟨input, input.needed, some ⟨verdefs, input.versionCount⟩,
              (input.neededVersions.map nameSize).sum + (input.object.libName.length + 1),
              0⟩ : Except String DynamicState)
          else pure ⟨input, input.needed, none,
            (input.neededVersions.map nameSize).sum, 0⟩) = .ok input.sized := by
        intro hlt
        rw [sized, dynstr, hdefs]
        split
        · rfl
        · next h0 =>
          have hnil : input.neededVersions = [] := by
            have hmod : input.versionCount.toNat = input.neededVersions.length := by
              rw [versionCount, UInt16.toNat_ofNat', Nat.mod_eq_of_lt hlt]
            have : input.versionCount.toNat = 0 := Nat.eq_zero_of_not_pos h0
            exact List.eq_nil_of_length_eq_zero (by omega)
          rw [hnil]
          rfl
      constructor
      · intro h
        obtain ⟨sizes, hsizes, h⟩ := bind_eq_ok.mp h
        obtain ⟨-, hlt, rfl⟩ := foldlM_sizeVerdef_eq_ok.mp hsizes
        rw [hcounted, hzero] at hlt
        rw [hafter] at h
        exact ⟨hndx, hlt, Except.ok.inj (h.symm.trans (hfinish hlt))⟩
      · rintro ⟨-, hlt, rfl⟩
        refine bind_eq_ok.mpr ⟨_, foldlM_sizeVerdef_eq_ok.mpr ⟨hndx, ?_, rfl⟩, ?_⟩
        · rw [hcounted, hzero]
          exact hlt
        · rw [hafter]
          exact hfinish hlt
    · constructor
      · intro h
        obtain ⟨sizes, hsizes, -⟩ := bind_eq_ok.mp h
        exact absurd (foldlM_sizeVerdef_eq_ok.mp hsizes).1 hndx
      · rintro ⟨h, -⟩
        exact absurd h hndx

theorem sizeDynamic_eq_ok :
    sizeDynamic input = .ok state ↔ input.Loadable ∧ state = input.sized := by
  unfold sizeDynamic
  rw [bind_eq_ok]
  constructor
  · rintro ⟨⟨⟩, hnames, h⟩
    obtain ⟨needed, hneeded, h⟩ := bind_eq_ok.mp h
    obtain ⟨hinRange, rfl⟩ := loadSymbols_eq_ok.mp hneeded
    have hchecked := getVersionNames_eq_ok.mp hnames
    obtain ⟨hndx, hlt, rfl⟩ := (finaliseSizesDynamic_eq_ok (fun d hd => (hchecked d hd).1)
      fun d hd => (hchecked d hd).2).mp h
    exact ⟨⟨fun d hd => (hchecked d hd).1, fun d hd => ⟨hndx d hd, (hchecked d hd).2⟩, hinRange,
      hlt⟩, rfl⟩
  · rintro ⟨h, rfl⟩
    refine ⟨(), getVersionNames_eq_ok.mpr fun d hd => ⟨h.named d hd, (h.dense d hd).2⟩,
      bind_eq_ok.mpr ⟨_, loadSymbols_eq_ok.mpr ⟨h.inRange, rfl⟩, ?_⟩⟩
    exact (finaliseSizesDynamic_eq_ok h.named fun d hd => (h.dense d hd).2).mpr
      ⟨fun d hd => (h.dense d hd).1, h.count, rfl⟩

end DynamicInput

/-! ## Records -/

/-- The definitions that get an entry. -/
def emittedVersions (mapping : List UInt16) (defs : List Verdef) : List Verdef :=
  defs.filter fun verdef =>
    !verdef.isBase && mapping[verdef.ndx.toNat - 1]? != some verNdxGlobal

/-- The bytes of the strings for these definitions. -/
def stringBytes (libName : Bytes) (mapping : List UInt16) (defs : List Verdef) : ℕ :=
  ((emittedVersions mapping defs).map Verdef.nameSize).sum
    + (defs.filter Verdef.isBase).length * (libName.length + 1)

theorem emittedVersions_append (mapping : List UInt16) (defs defs' : List Verdef) :
    emittedVersions mapping (defs ++ defs')
      = emittedVersions mapping defs ++ emittedVersions mapping defs' := List.filter_append _ _

theorem stringBytes_append (libName : Bytes) (mapping : List UInt16) (defs defs' : List Verdef) :
    stringBytes libName mapping (defs ++ defs')
      = stringBytes libName mapping defs + stringBytes libName mapping defs' := by
  unfold stringBytes
  rw [emittedVersions_append, List.map_append, List.sum_append, List.filter_append,
    List.length_append, Nat.add_mul]
  omega

/-- Entry number `k` of `total`. -/
structure VernauxAt (mapping : List UInt16) (strings : List (UInt32 × Bytes)) (total k : ℕ)
    (verdef : Verdef) (aux : Vernaux) : Prop where
  other : mapping[verdef.ndx.toNat - 1]? = some aux.other
  name : ∃ name ∈ verdef.names.head?, aux.hash = sysvHash name ∧ (aux.name, name) ∈ strings
  flags : aux.flags = 0
  next : aux.next = if k + 1 = total then 0 else UInt32.ofNat vernauxSize

/-- What has been written after some definitions. -/
structure Written (libName : Bytes) (mapping : List UInt16) (start : NeedsWriter)
    (done : List Verdef) (w : NeedsWriter) : Prop where
  free : w.strtab.free + stringBytes libName mapping done = start.strtab.free
  auxIndex : w.auxIndex = (emittedVersions mapping done).length
  length : w.auxes.length = start.auxes.length
  auxes : ∀ (k : ℕ) (verdef : Verdef), (emittedVersions mapping done)[k]? = some verdef →
    ∃ aux, w.auxes[k]? = some aux
      ∧ VernauxAt mapping w.strtab.strings start.auxes.length k verdef aux
  file : done.any Verdef.isBase = true → (w.verNeed.file, libName) ∈ w.strtab.strings
  fields : ∃ file, w.verNeed = { start.verNeed with file := file }

/-- What the loop asks of a definition. -/
structure Writable (mapping : List UInt16) (verdef : Verdef) : Prop where
  ndx : verdef.ndx ≠ 0
  mapped : verdef.ndx.toNat ≤ mapping.length
  named : verdef.names ≠ []

section Writer

variable {libName : Bytes} {mapping : List UInt16} {start w : NeedsWriter} {done : List Verdef}
  {verdef : Verdef}

theorem VernauxAt.mono {strings strings' : List (UInt32 × Bytes)} {total k : ℕ} {aux : Vernaux}
    (h : VernauxAt mapping strings total k verdef aux) (hsub : strings ⊆ strings') :
    VernauxAt mapping strings' total k verdef aux where
  other := h.other
  name := by
    obtain ⟨name, hname, hhash, hmem⟩ := h.name
    exact ⟨name, hname, hhash, hsub hmem⟩
  flags := h.flags
  next := h.next

theorem writeStr_of_le {strtab : StrTabWriter} {str : Bytes} (h : str.length + 1 ≤ strtab.free) :
    ∃ strtab', strtab.writeStr str = .ok (strtab.nextOffset, strtab')
      ∧ strtab'.free + (str.length + 1) = strtab.free
      ∧ strtab'.strings = strtab.strings ++ [(strtab.nextOffset, str)]
      ∧ strtab.strings ⊆ strtab'.strings :=
  ⟨_, if_pos h, Nat.sub_add_cancel h, rfl, List.subset_append_left _ _⟩

section

variable (h : Written libName mapping start done w)

include h

theorem Written.skip (hbase : verdef.isBase = false)
    (hskip : emittedVersions mapping [verdef] = []) :
    Written libName mapping start (done ++ [verdef]) w := by
  have hfilter : [verdef].filter isBase = [] :=
    List.filter_cons_of_neg (by rw [hbase]; decide)
  have hbytes : stringBytes libName mapping [verdef] = 0 := by
    rw [stringBytes, hskip, hfilter, List.length_nil, Nat.zero_mul]
    rfl
  have hemitted : emittedVersions mapping (done ++ [verdef]) = emittedVersions mapping done := by
    rw [emittedVersions_append, hskip, List.append_nil]
  refine ⟨?_, ?_, h.length, ?_, fun hany => h.file ?_, h.fields⟩
  · rw [stringBytes_append, hbytes]
    exact h.free
  · rw [hemitted]
    exact h.auxIndex
  · rw [hemitted]
    exact h.auxes
  · rwa [List.any_append, List.any_cons, List.any_nil, hbase, Bool.or_false, Bool.or_false] at hany

theorem exists_writeVerdef_base (hbase : verdef.isBase = true)
    (hfree : stringBytes libName mapping (done ++ [verdef]) ≤ start.strtab.free) :
    ∃ w', writeVerdef libName mapping w verdef = .ok w'
      ∧ Written libName mapping start (done ++ [verdef]) w' := by
  have hemitted : emittedVersions mapping [verdef] = [] :=
    List.filter_cons_of_neg (by rw [hbase]; exact Bool.false_ne_true)
  have hbytes : stringBytes libName mapping [verdef] = libName.length + 1 := by
    have hfilter : [verdef].filter isBase = [verdef] := List.filter_cons_of_pos hbase
    rw [stringBytes, hemitted, hfilter, List.length_singleton, Nat.one_mul, List.map_nil,
      List.sum_nil, Nat.zero_add]
  have happend : emittedVersions mapping (done ++ [verdef]) = emittedVersions mapping done := by
    rw [emittedVersions_append, hemitted, List.append_nil]
  rw [stringBytes_append] at hfree
  have hroom : libName.length + 1 ≤ w.strtab.free := by
    have := h.free
    omega
  obtain ⟨strtab, hstr, hleft, hstrs, hsub⟩ := writeStr_of_le hroom
  obtain ⟨file, hfields⟩ := h.fields
  refine ⟨{ w with strtab := strtab, verNeed := { w.verNeed with file := w.strtab.nextOffset } },
    ?_, ?_, ?_, h.length, ?_, fun _ => ?_, w.strtab.nextOffset, ?_⟩
  · unfold writeVerdef
    rw [if_pos hbase, hstr]
    rfl
  · show strtab.free + _ = _
    rw [stringBytes_append]
    have := h.free
    omega
  · rw [happend]
    exact h.auxIndex
  · rw [happend]
    intro k d hd
    obtain ⟨aux, haux, hat⟩ := h.auxes k d hd
    exact ⟨aux, haux, hat.mono hsub⟩
  · rw [hstrs]
    exact List.mem_append_right _ (List.mem_singleton.mpr rfl)
  · rw [hfields]

theorem exists_writeVerdef_emitted (hbase : verdef.isBase = false)
    (hwritable : Writable mapping verdef) {output : UInt16}
    (hmapped : mapping[verdef.ndx.toNat - 1]? = some output) (hne : output ≠ verNdxGlobal)
    (hroom : (emittedVersions mapping done).length < start.auxes.length)
    (hfree : stringBytes libName mapping (done ++ [verdef]) ≤ start.strtab.free) :
    ∃ w', writeVerdef libName mapping w verdef = .ok w'
      ∧ Written libName mapping start (done ++ [verdef]) w' := by
  have hemitted : emittedVersions mapping [verdef] = [verdef] := by
    refine List.filter_cons_of_pos ?_
    rw [hbase, hmapped, Bool.not_false, Bool.true_and, bne_iff_ne]
    exact fun heq => hne (Option.some.inj heq)
  obtain ⟨name, names, hnames⟩ := List.exists_cons_of_ne_nil hwritable.named
  have hbytes : stringBytes libName mapping [verdef] = name.length + 1 := by
    have hfilter : [verdef].filter isBase = [] :=
      List.filter_cons_of_neg (by rw [hbase]; exact Bool.false_ne_true)
    rw [stringBytes, hemitted, hfilter, List.length_nil, Nat.zero_mul, List.map_singleton,
      List.sum_singleton, nameSize, hnames]
    rfl
  rw [stringBytes_append] at hfree
  have hroom' : name.length + 1 ≤ w.strtab.free := by
    have := h.free
    omega
  obtain ⟨strtab, hstr, hleft, hstrs, hsub⟩ := writeStr_of_le hroom'
  have hindex : w.auxIndex < w.auxes.length := by
    rw [h.auxIndex, h.length]
    exact hroom
  let aux : Vernaux := ⟨sysvHash name, 0, output, w.strtab.nextOffset,
    if decide (w.auxIndex + 1 = w.auxes.length) then 0 else UInt32.ofNat vernauxSize⟩
  refine ⟨{ w with
      strtab := strtab
      auxIndex := w.auxIndex + 1
      auxes := w.auxes.set w.auxIndex aux }, ?_, ?_, ?_, ?_, ?_, fun hany => hsub (h.file ?_),
    h.fields⟩
  · unfold writeVerdef
    rw [if_neg (by rw [hbase]; exact Bool.false_ne_true), if_neg hwritable.ndx, hmapped,
      Option.getD_some, if_pos hne, hnames, List.head?_cons, orError_some, ok_bind]
    unfold writeVernaux
    rw [hstr]
    show (if w.auxIndex < w.auxes.length then _ else _) = _
    rw [if_pos hindex]
    rfl
  · show strtab.free + _ = _
    rw [stringBytes_append]
    have := h.free
    omega
  · rw [emittedVersions_append, hemitted, List.length_append, h.auxIndex, List.length_singleton]
  · rw [List.length_set]
    exact h.length
  · intro k d hd
    rw [emittedVersions_append, hemitted, List.getElem?_append, ← h.auxIndex] at hd
    split at hd
    · next hlt =>
      obtain ⟨entry, hentry, hat⟩ := h.auxes k d hd
      rw [List.getElem?_set_ne (Nat.ne_of_gt hlt)]
      exact ⟨entry, hentry, hat.mono hsub⟩
    · next hge =>
      obtain ⟨hzero, hd⟩ := List.getElem?_eq_some_iff.mp hd
      have hk : k = w.auxIndex := by
        rw [List.length_singleton] at hzero
        omega
      subst hk
      rw [List.getElem?_set_self hindex]
      rw [List.getElem_singleton] at hd
      subst hd
      refine ⟨aux, rfl, hmapped, ⟨name, by rw [hnames]; rfl, rfl, ?_⟩, rfl, ?_⟩
      · rw [hstrs]
        exact List.mem_append_right _ (List.mem_singleton.mpr rfl)
      · show (if decide _ then _ else _) = _
        simp only [h.length, decide_eq_true_eq]
  · rwa [List.any_append, List.any_cons, List.any_nil, hbase, Bool.or_false, Bool.or_false] at hany

theorem exists_writeVerdef (hwritable : Writable mapping verdef)
    (hroom : (emittedVersions mapping (done ++ [verdef])).length ≤ start.auxes.length)
    (hfree : stringBytes libName mapping (done ++ [verdef]) ≤ start.strtab.free) :
    ∃ w', writeVerdef libName mapping w verdef = .ok w'
      ∧ Written libName mapping start (done ++ [verdef]) w' := by
  cases hbase : verdef.isBase with
  | true => exact exists_writeVerdef_base h hbase hfree
  | false =>
    have hpos := pos_of_ne_zero hwritable.ndx
    have hlt : verdef.ndx.toNat - 1 < mapping.length := by
      have := hwritable.mapped
      omega
    have hmapped := List.getElem?_eq_getElem hlt
    by_cases hglobal : mapping[verdef.ndx.toNat - 1] = verNdxGlobal
    · have hskip : emittedVersions mapping [verdef] = [] := by
        refine List.filter_cons_of_neg ?_
        rw [hmapped, hglobal, bne_self_eq_false, Bool.and_false]
        exact Bool.false_ne_true
      refine ⟨w, ?_, h.skip hbase hskip⟩
      unfold writeVerdef
      rw [if_neg (by rw [hbase]; exact Bool.false_ne_true), if_neg hwritable.ndx, hmapped,
        Option.getD_some, if_neg (not_not_intro hglobal)]
    · refine exists_writeVerdef_emitted h hbase hwritable hmapped hglobal ?_ hfree
      have hemitted : emittedVersions mapping [verdef] = [verdef] := by
        refine List.filter_cons_of_pos ?_
        rw [hbase, hmapped, Bool.not_false, Bool.true_and, bne_iff_ne]
        exact fun heq => hglobal (Option.some.inj heq)
      rw [emittedVersions_append, hemitted, List.length_append, List.length_singleton] at hroom
      omega

theorem exists_foldlM_writeVerdef {defs : List Verdef}
    (hwritable : ∀ verdef ∈ defs, Writable mapping verdef)
    (hroom : (emittedVersions mapping (done ++ defs)).length ≤ start.auxes.length)
    (hfree : stringBytes libName mapping (done ++ defs) ≤ start.strtab.free) :
    ∃ w', defs.foldlM (writeVerdef libName mapping) w = .ok w'
      ∧ Written libName mapping start (done ++ defs) w' := by
  induction defs generalizing done w with
  | nil =>
    rw [List.append_nil]
    exact ⟨w, rfl, h⟩
  | cons verdef defs ih =>
    have happend : done ++ verdef :: defs = (done ++ [verdef]) ++ defs := by
      rw [List.append_assoc, List.singleton_append]
    rw [happend] at hroom hfree ⊢
    rw [List.forall_mem_cons] at hwritable
    obtain ⟨w₁, hfirst, hw₁⟩ := exists_writeVerdef h hwritable.1
      (by rw [emittedVersions_append, List.length_append] at hroom; omega)
      (by rw [stringBytes_append] at hfree; omega)
    obtain ⟨w', hrest, hw'⟩ := ih hw₁ hwritable.2 hroom hfree
    exact ⟨w', by rw [List.foldlM_cons, hfirst]; exact hrest, hw'⟩

end

theorem written_start (hindex : start.auxIndex = 0) : Written libName mapping start [] start where
  free := by simp [stringBytes, emittedVersions]
  auxIndex := hindex
  length := rfl
  auxes k d hd := by cases hd
  file h := by cases h
  fields := ⟨start.verNeed.file, rfl⟩

end Writer

end Sld.Dynamic
