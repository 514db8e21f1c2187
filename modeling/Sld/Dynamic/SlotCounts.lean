/-
# `Dynamic.SlotCounts` — how many slots a symbol has

For one symbol, reserving, handing out and writing each come down to a number
of slots in every table.

    gotSlots, pltSlots    for the addresses that the symbol is told
    written               for what is written
    Matches               when these are the numbers that are reserved
-/
import Mathlib.Tactic.Ring
import Sld.Dynamic.SymbolSlots

namespace Sld.Dynamic.SymbolSlots

open Gc (ValueFlags isRelocatable isStaticExecutable)
open Store (SlotTables)
open Store.SlotProgram (one Takes bind_eq_ok takeFor_eq_ok)

/-! ## Conditions on a symbol -/

/-- The writer does not turn the symbol down. -/
structure Accepted (linking : Linking) (symbol : Symbol) : Prop where
  index : symbol.dynamicSymbolIndex = none →
    (.gotTlsOffset ∈ symbol.flags → ¬ symbol.flags.HasDynamicSymbol)
      ∧ (¬ symbol.flags.IsTls → .got ∈ symbol.flags ∨ .plt ∈ symbol.flags →
        .dynamic ∉ symbol.flags
          ∧ (.exportDynamic ∈ symbol.flags → symbol.flags.isInterposable = true →
            .ifunc ∈ symbol.flags))
  tlsOffset : .gotTlsOffset ∈ symbol.flags → ¬ symbol.flags.HasDynamicSymbol →
    symbol.rawValue ≠ 0 → linking.tlsStart ≤ symbol.rawValue ∧ symbol.rawValue ≤ linking.tlsEnd
  tlsModule : .gotTlsModule ∈ symbol.flags → symbol.dynamicSymbolIndex = none →
    symbol.flags.isAddress = true
  tlsDescriptor : .gotTlsDescriptor ∈ symbol.flags → isStaticExecutable linking.outputKind = false

/-- The slot with the offset of the variable: a relocation is reserved for it … -/
def TpOffReserved (linking : Linking) (symbol : Symbol) : Prop :=
  .gotTlsOffset ∈ symbol.flags
    ∧ (symbol.flags.isInterposable = true ∨ linking.outputKind = .sharedObject)

/-- … and one is written. -/
def TpOffWritten (linking : Linking) (symbol : Symbol) : Prop :=
  .gotTlsOffset ∈ symbol.flags
    ∧ (symbol.flags.HasDynamicSymbol
      ∨ symbol.rawValue ≠ 0 ∧ isExecutable linking.outputKind = false)

/-- The same for the slot with the offset in the module. -/
def DtpOffReserved (symbol : Symbol) : Prop :=
  .gotTlsModule ∈ symbol.flags ∧ symbol.flags.HasDynamicSymbol

def DtpOffWritten (symbol : Symbol) : Prop :=
  .gotTlsModule ∈ symbol.flags ∧ symbol.dynamicSymbolIndex.isSome = true
    ∧ symbol.flags.isInterposable = true

instance (linking : Linking) (symbol : Symbol) : Decidable (TpOffReserved linking symbol) :=
  inferInstanceAs (Decidable (_ ∧ (_ ∨ _)))

instance (linking : Linking) (symbol : Symbol) : Decidable (TpOffWritten linking symbol) :=
  inferInstanceAs (Decidable (_ ∧ (_ ∨ _ ∧ _)))

instance (symbol : Symbol) : Decidable (DtpOffReserved symbol) :=
  inferInstanceAs (Decidable (_ ∧ _))

instance (symbol : Symbol) : Decidable (DtpOffWritten symbol) :=
  inferInstanceAs (Decidable (_ ∧ _ ∧ _))

def count (p : Prop) [Decidable p] : ℕ := if p then 1 else 0

/-- The flags of a symbol suit all three functions. -/
structure Matches (linking : Linking) (symbol : Symbol) : Prop where
  plt : .plt ∈ symbol.flags → .got ∈ symbol.flags ∧ ¬ symbol.flags.IsTls
  ifuncGot : .ifuncGotForAddress ∈ symbol.flags → .plt ∈ symbol.flags
  ifunc : .got ∈ symbol.flags → ¬ symbol.flags.IsTls → .ifunc ∈ symbol.flags →
    .dynamic ∉ symbol.flags
  tls : count (TpOffReserved linking symbol) + count (DtpOffReserved symbol)
    = count (TpOffWritten linking symbol) + count (DtpOffWritten symbol)

/-! ## What a symbol is told -/

section

variable (symbol : Symbol) (offsets : Offsets)

def gotSlots (flags : ValueFlags) : ℕ :=
  if .plt ∈ flags then if .ifuncGotForAddress ∈ flags then 2 else 1
  else if flags.IsTls then numGotSlots flags
  else if .got ∈ flags then 1
  else 0

def pltSlots (flags : ValueFlags) : ℕ := if .plt ∈ flags then 1 else 0

@[simp] theorem resolve_flags : (symbol.resolve offsets).1.flags = symbol.flags := by
  simp only [Symbol.resolve, createResolution]
  split_ifs <;> rfl

@[simp] theorem resolve_dynamicSymbolIndex :
    (symbol.resolve offsets).1.dynamicSymbolIndex = symbol.dynamicSymbolIndex := by
  simp only [Symbol.resolve, createResolution]
  split_ifs <;> rfl

theorem resolve_rawValue (h : ¬ (.plt ∈ symbol.flags ∧ .dynamic ∈ symbol.flags)) :
    (symbol.resolve offsets).1.rawValue = symbol.rawValue := by
  simp only [Symbol.resolve, createResolution]
  split_ifs <;> first | rfl | exact absurd ⟨‹_›, ‹_›⟩ h

theorem resolve_gotAddress : (symbol.resolve offsets).1.gotAddress
    = if .plt ∈ symbol.flags ∨ symbol.flags.IsTls ∨ .got ∈ symbol.flags then some offsets.got
      else none := by
  simp only [Symbol.resolve, createResolution]
  split_ifs <;> simp_all

theorem resolve_pltAddress : (symbol.resolve offsets).1.pltAddress
    = if .plt ∈ symbol.flags then some offsets.plt else none := by
  simp only [Symbol.resolve, createResolution]
  split_ifs <;> rfl

@[simp] theorem resolve_got : (symbol.resolve offsets).2.got
    = offsets.got + gotEntrySize * gotSlots symbol.flags := by
  simp only [Symbol.resolve, createResolution, gotSlots]
  split_ifs <;> rfl

@[simp] theorem resolve_plt : (symbol.resolve offsets).2.plt
    = offsets.plt + pltEntrySize * pltSlots symbol.flags := by
  simp only [Symbol.resolve, createResolution, pltSlots]
  split_ifs <;> rfl

end

/-! ## What is written for a symbol -/

/-- The table with the dynamic relocation for the GOT entry of a symbol that
is not thread-local, if it has one. -/
def gotRelocation (outputKind : OutputKind) (relr : Bool) (flags : ValueFlags) : Table → ℕ :=
  if .dynamic ∈ flags
      ∨ (.exportDynamic ∈ flags ∧ flags.isInterposable = true) ∧ .ifunc ∉ flags then
    one Table.relaDynGeneral
  else if .ifunc ∈ flags then one Table.relaPlt
  else if flags.isAddress = true ∧ isRelocatable outputKind = true then one (relativeTable relr)
  else 0

/-- The slots that the writer takes for a symbol. -/
def written (writer : TableWriter) (symbol : Symbol) : Table → ℕ :=
  if symbol.flags.IsTls then
    (if .gotTlsOffset ∈ symbol.flags then
        one Table.got
        + (if TpOffWritten writer.linking symbol then one Table.relaDynGeneral else 0)
      else 0)
    + ((if .gotTlsModule ∈ symbol.flags then
        one Table.got
        + (if isExecutable writer.linking.outputKind = true ∧ .dynamic ∉ symbol.flags then 0
          else one Table.relaDynGeneral)
        + (one Table.got + (if DtpOffWritten symbol then one Table.relaDynGeneral else 0))
      else 0)
    + (if .gotTlsDescriptor ∈ symbol.flags then one Table.got + (one Table.got + one Table.relaDynGeneral) else 0))
  else if .plt ∈ symbol.flags ∨ .got ∈ symbol.flags then
    one Table.got + gotRelocation writer.linking.outputKind writer.relrDyn symbol.flags
    + ((if .plt ∈ symbol.flags then one Table.pltGot else 0)
    + (if .ifuncGotForAddress ∈ symbol.flags then
        one Table.got
        + (if isRelocatable writer.linking.outputKind = true then
            one (relativeTable writer.relrDyn)
          else 0)
      else 0))
  else 0

section

variable {writer : TableWriter} {res : Resolution} {place : ℕ}

theorem takes_writeAddressRelocation (hplace : 2 ∣ place) (relativeAddress : ℕ) :
    Takes (writeAddressRelocation writer place relativeAddress)
      (one (relativeTable writer.relrDyn)) := by
  have hif : ∀ table entry value, Takes (takeEntry table entry >>= fun _ =>
      (pure value : Program Entry)) (one table) := fun table entry value =>
    add_zero (one table) ▸ (Takes.take _ table entry).bind fun _ => Takes.pure value
  simp only [writeAddressRelocation, relativeTable]
  cases h : writer.relrDyn <;> simpa [hplace] using hif ..

theorem takes_takeNextGotEntry {value : Program Entry} {cost : Table → ℕ} (h : Takes value cost) :
    Takes (takeNextGotEntry value) (one Table.got + cost) := h.takeFor ..

theorem takes_require {message : String} {n : Option ℕ} (h : n ≠ none) :
    Takes (require message n) (0 : Table → ℕ) := by
  cases n with
  | none => exact absurd rfl h
  | some n => exact Takes.pure n

theorem takes_takeEntry (table : Table) (entry : Entry) :
    Takes (takeEntry table entry) (one table) := Takes.take ..

theorem takes_general (kind : DynamicRelocationKind) {place symbolIndex addend : ℕ} :
    Takes (writeRelaDynGeneral place symbolIndex kind addend) (one Table.relaDynGeneral) :=
  Takes.take ..

variable {symbol : Symbol} {offsets : Offsets} {gotAddress : ℕ}

section

variable (h : Accepted writer.linking symbol)

include h

theorem takes_processGotTlsOffset (hflag : .gotTlsOffset ∈ symbol.flags) :
    Takes (processGotTlsOffset writer (symbol.resolve offsets).1 gotAddress)
      (one Table.got + if TpOffWritten writer.linking symbol then one Table.relaDynGeneral else 0) := by
  refine takes_takeNextGotEntry ?_
  simp only [resolve_flags, resolve_dynamicSymbolIndex]
  by_cases hdyn : symbol.flags.HasDynamicSymbol
  · have hindex : symbol.dynamicSymbolIndex ≠ none := fun hnone =>
      (h.index hnone).1 hflag hdyn
    have hwritten : TpOffWritten writer.linking symbol := ⟨hflag, .inl hdyn⟩
    rw [if_pos hdyn, if_pos hwritten]
    simpa using (takes_require hindex).bind fun index =>
      (takes_general .tpOff).bind fun _ => Takes.pure (Entry.word 0)
  have hvalue : (symbol.resolve offsets).1.rawValue = symbol.rawValue :=
    resolve_rawValue symbol offsets fun h => hdyn (.inl h.2)
  rw [if_neg hdyn, hvalue]
  by_cases hzero : symbol.rawValue = 0
  · have hwritten : ¬ TpOffWritten writer.linking symbol := fun hw =>
      hw.2.elim hdyn fun hne => hne.1 hzero
    rw [if_pos hzero, if_neg hwritten]
    exact Takes.pure _
  rw [if_neg hzero, if_neg (not_not.mpr (h.tlsOffset hflag hdyn hzero))]
  cases hexec : isExecutable writer.linking.outputKind with
  | true =>
    have hwritten : ¬ TpOffWritten writer.linking symbol := fun hw =>
      hw.2.elim hdyn fun hne => by simp [hexec] at hne
    rw [if_pos rfl, if_neg hwritten]
    exact Takes.pure _
  | false =>
    have hwritten : TpOffWritten writer.linking symbol := ⟨hflag, .inr ⟨hzero, hexec⟩⟩
    rw [if_neg Bool.false_ne_true, if_pos hwritten]
    simpa using (takes_general .tpOff).bind fun _ => Takes.pure Entry.untouched

theorem takes_processGotTlsModAndOffset (hflag : .gotTlsModule ∈ symbol.flags) :
    Takes (processGotTlsModAndOffset writer (symbol.resolve offsets).1 gotAddress) (one Table.got
        + (if isExecutable writer.linking.outputKind = true ∧ .dynamic ∉ symbol.flags then 0
          else one Table.relaDynGeneral)
        + (one Table.got + (if DtpOffWritten symbol then one Table.relaDynGeneral else 0))) := by
  refine Takes.bind (takes_takeNextGotEntry ?_) fun _ => takes_takeNextGotEntry ?_
  · rw [resolve_flags]
    refine Takes.ite (fun _ => Takes.pure _) fun _ => ?_
    simpa using (takes_general .dtpMod).bind fun _ => Takes.pure (Entry.word 0)
  · rw [resolve_dynamicSymbolIndex, resolve_flags]
    cases hindex : symbol.dynamicSymbolIndex with
    | some index =>
      have hwritten : DtpOffWritten symbol ↔ symbol.flags.isInterposable = true := by
        simp [DtpOffWritten, hflag, hindex]
      simp only [hwritten]
      simpa using (Takes.ite (fun _ => takes_general .dtpOff) fun _ =>
        Takes.pure ()).bind fun _ => Takes.pure (Entry.word 0)
    | none =>
      have hwritten : ¬ DtpOffWritten symbol := by simp [DtpOffWritten, hindex]
      have haddr : (symbol.resolve offsets).1.address ≠ none := by
        simp [Resolution.address, h.tlsModule hflag hindex]
      rw [if_neg hwritten]
      simpa using (takes_require haddr).bind fun address => Takes.pure (Entry.word _)

theorem takes_processGotTlsDescriptor (hflag : .gotTlsDescriptor ∈ symbol.flags) :
    Takes (processGotTlsDescriptor writer (symbol.resolve offsets).1 gotAddress)
      (one Table.got + (one Table.got + one Table.relaDynGeneral)) := by
  have hslot : Takes (takeNextGotEntry (pure (.word 0))) (one Table.got) := by
    simpa using takes_takeNextGotEntry (Takes.pure (Entry.word 0))
  refine hslot.bind fun _ => hslot.bind fun _ => ?_
  rw [if_neg (by simp [h.tlsDescriptor hflag])]
  exact takes_general _

theorem takes_gotEntry (htls : ¬ symbol.flags.IsTls)
    (hflag : .got ∈ symbol.flags ∨ .plt ∈ symbol.flags) (hplace : 2 ∣ gotAddress) :
    Takes (gotEntry writer (symbol.resolve offsets).1 gotAddress)
      (gotRelocation writer.linking.outputKind writer.relrDyn symbol.flags) := by
  simp only [gotEntry, gotRelocation, resolve_flags, resolve_dynamicSymbolIndex]
  refine Takes.ite (fun hdyn => ?_) fun _ => Takes.ite (fun _ => ?_) fun _ =>
    Takes.ite (fun _ => takes_writeAddressRelocation hplace _) fun _ => Takes.pure _
  · have hindex : symbol.dynamicSymbolIndex ≠ none := fun hnone => by
      have hnot := (h.index hnone).2 htls hflag
      rcases hdyn with hdyn | ⟨⟨hexport, hinterposable⟩, hifunc⟩
      · exact hnot.1 hdyn
      · exact hifunc (hnot.2 hexport hinterposable)
    simpa using (takes_require hindex).bind fun index =>
      (takes_general .gotEntry).bind fun _ => Takes.pure (Entry.word 0)
  · simpa using (takes_takeEntry .relaPlt (.rela gotAddress 0 .irelative _)).bind fun _ =>
      Takes.pure (Entry.word 0)

theorem takes_processResolution
    (hifunc : .ifuncGotForAddress ∈ symbol.flags → .plt ∈ symbol.flags) :
    Takes (processResolution writer (symbol.resolve offsets).1) (written writer symbol) := by
  have heven : 2 ∣ offsets.got := Dvd.dvd.trans (by decide) offsets.dvd_got
  unfold processResolution written
  rw [resolve_gotAddress, resolve_pltAddress]
  by_cases htls : symbol.flags.IsTls
  · simp only [htls, true_or, or_true, resolve_flags]
    refine Takes.bind (Takes.ite (takes_processGotTlsOffset h) fun _ => Takes.pure ()) fun _ =>
      Takes.bind (Takes.ite (takes_processGotTlsModAndOffset h) fun _ => Takes.pure ()) fun _ =>
        Takes.ite (takes_processGotTlsDescriptor h) fun _ => Takes.pure ()
  simp only [htls, false_or, resolve_flags]
  by_cases hflag : .plt ∈ symbol.flags ∨ .got ∈ symbol.flags
  · simp only [hflag]
    refine Takes.bind (takes_takeNextGotEntry (takes_gotEntry h htls hflag.symm heven)) fun _ =>
      Takes.bind ?_ fun _ => Takes.ite (fun hifuncGot => ?_) fun _ => Takes.pure ()
    · split_ifs
      · exact Takes.take ..
      · exact Takes.pure ()
    · refine takes_takeNextGotEntry ?_
      rw [if_pos (hifunc hifuncGot)]
      have hplace : 2 ∣ offsets.got + gotEntrySize := (Nat.dvd_add_right heven).mpr (by decide)
      simpa using (takes_require (n := some offsets.plt) (by simp)).bind fun pltAddress =>
        Takes.ite (fun _ => takes_writeAddressRelocation hplace pltAddress) fun _ =>
          Takes.pure (Entry.word pltAddress)
  · simp only [hflag, if_false]
    exact Takes.pure ()

end

end

/-! ## What is turned down -/

section

variable {writer : TableWriter} {symbol : Symbol} {offsets : Offsets} {gotAddress : ℕ}
  {before after : SlotTables Table Entry} {u : Unit}

theorem require_eq_ok {message : String} {n : Option ℕ} {m : ℕ}
    (h : require message n before = .ok (m, after)) : n ≠ none := by
  rintro rfl
  cases h

theorem tlsOffset_of_processed
    (h : processGotTlsOffset writer (symbol.resolve offsets).1 gotAddress before = .ok (u, after)) :
    (symbol.dynamicSymbolIndex = none → ¬ symbol.flags.HasDynamicSymbol)
      ∧ (¬ symbol.flags.HasDynamicSymbol → symbol.rawValue ≠ 0 →
        writer.linking.tlsStart ≤ symbol.rawValue ∧ symbol.rawValue ≤ writer.linking.tlsEnd) := by
  obtain ⟨taken, entry, middle, hrun⟩ := takeFor_eq_ok h
  rw [resolve_flags, resolve_dynamicSymbolIndex] at hrun
  by_cases hdynamic : symbol.flags.HasDynamicSymbol
  · rw [if_pos hdynamic] at hrun
    obtain ⟨_, _, hindex, _⟩ := bind_eq_ok hrun
    exact ⟨fun hnone => absurd hnone (require_eq_ok hindex), fun hnot => absurd hdynamic hnot⟩
  · refine ⟨fun _ => hdynamic, fun _ hvalue => ?_⟩
    by_contra hout
    rw [if_neg hdynamic, resolve_rawValue symbol offsets fun hd => hdynamic (.inl hd.2),
      if_neg hvalue, if_pos hout] at hrun
    cases hrun

theorem tlsModule_of_processed
    (h : processGotTlsModAndOffset writer (symbol.resolve offsets).1 gotAddress before
      = .ok (u, after)) (hindex : symbol.dynamicSymbolIndex = none) :
    symbol.flags.isAddress = true := by
  obtain ⟨_, _, _, hsecond⟩ := bind_eq_ok h
  obtain ⟨taken, entry, middle, hrun⟩ := takeFor_eq_ok hsecond
  rw [resolve_dynamicSymbolIndex, hindex] at hrun
  obtain ⟨_, _, haddress, _⟩ := bind_eq_ok hrun
  by_contra hnot
  refine require_eq_ok haddress ?_
  rw [Resolution.address, resolve_flags, if_neg hnot]

theorem tlsDescriptor_of_processed
    (h : processGotTlsDescriptor writer (symbol.resolve offsets).1 gotAddress before
      = .ok (u, after)) : isStaticExecutable writer.linking.outputKind = false := by
  obtain ⟨_, _, _, hsecond⟩ := bind_eq_ok h
  obtain ⟨_, _, _, hrun⟩ := bind_eq_ok hsecond
  by_contra hstatic
  rw [if_pos (by simpa using hstatic)] at hrun
  cases hrun

theorem index_of_gotEntry {entry : Entry}
    (h : gotEntry writer (symbol.resolve offsets).1 gotAddress before = .ok (entry, after))
    (hindex : symbol.dynamicSymbolIndex = none) :
    .dynamic ∉ symbol.flags
      ∧ (.exportDynamic ∈ symbol.flags → symbol.flags.isInterposable = true →
        .ifunc ∈ symbol.flags) := by
  unfold gotEntry at h
  rw [resolve_flags, resolve_dynamicSymbolIndex] at h
  split_ifs at h with hdynamic
  · obtain ⟨_, _, hrequired, _⟩ := bind_eq_ok h
    exact absurd hindex (require_eq_ok hrequired)
  all_goals
    rw [not_or] at hdynamic
    refine ⟨hdynamic.1, fun hexport hinterposable => ?_⟩
    by_contra hifunc
    exact hdynamic.2 ⟨⟨hexport, hinterposable⟩, hifunc⟩

/-- The writer itself checks what `Accepted` asks of a symbol. -/
theorem accepted_of_processed
    (h : processResolution writer (symbol.resolve offsets).1 before = .ok (u, after)) :
    Accepted writer.linking symbol := by
  unfold processResolution at h
  rw [resolve_gotAddress, resolve_pltAddress] at h
  by_cases htls : symbol.flags.IsTls
  · simp only [htls, true_or, or_true, if_true, resolve_flags] at h
    obtain ⟨_, _, hoffset, hrest⟩ := bind_eq_ok h
    obtain ⟨_, _, hmodule, hdescriptor⟩ := bind_eq_ok hrest
    refine ⟨fun hindex => ⟨fun hflag => ?_, fun hnot => absurd htls hnot⟩, fun hflag => ?_,
      fun hflag => ?_, fun hflag => ?_⟩
    · rw [if_pos hflag] at hoffset
      exact (tlsOffset_of_processed hoffset).1 hindex
    · rw [if_pos hflag] at hoffset
      exact (tlsOffset_of_processed hoffset).2
    · rw [if_pos hflag] at hmodule
      exact tlsModule_of_processed hmodule
    · rw [if_pos hflag] at hdescriptor
      exact tlsDescriptor_of_processed hdescriptor
  · have hnot : .gotTlsOffset ∉ symbol.flags ∧ .gotTlsModule ∉ symbol.flags
        ∧ .gotTlsDescriptor ∉ symbol.flags :=
      ⟨fun hf => htls (.inl hf), fun hf => htls (.inr (.inl hf)), fun hf => htls (.inr (.inr hf))⟩
    refine ⟨fun hindex => ⟨fun hflag => absurd hflag hnot.1, fun _ hflag => ?_⟩,
      fun hflag => absurd hflag hnot.1, fun hflag => absurd hflag hnot.2.1,
      fun hflag => absurd hflag hnot.2.2⟩
    simp only [htls, false_or, hflag.symm, if_true, if_false, resolve_flags] at h
    obtain ⟨_, _, hentry, _⟩ := bind_eq_ok h
    obtain ⟨taken, entry, middle, hrun⟩ := takeFor_eq_ok hentry
    exact index_of_gotEntry hrun hindex

end

/-! ## Counting -/

section

variable {linking : Linking} {symbol : Symbol} {flags : ValueFlags}

theorem not_isTls (h : ¬ flags.IsTls) :
    .gotTlsOffset ∉ flags ∧ .gotTlsModule ∉ flags ∧ .gotTlsDescriptor ∉ flags :=
  ⟨fun hf => h (.inl hf), fun hf => h (.inr (.inl hf)), fun hf => h (.inr (.inr hf))⟩

theorem numGotSlots_eq_zero (h : ¬ flags.IsTls) : numGotSlots flags = 0 := by
  obtain ⟨hoff, hmodule, hdescriptor⟩ := not_isTls h
  simp [numGotSlots, hoff, hmodule, hdescriptor]

theorem relativeTable_ne (relr : Bool) : relativeTable relr ≠ .got ∧ relativeTable relr ≠ .pltGot
    ∧ relativeTable relr ≠ .relaPlt ∧ relativeTable relr ≠ .relaDynGeneral := by
  cases relr <;> decide

theorem one_self (table : Table) : one table table = 1 := Pi.single_eq_same ..

theorem one_of_ne {table other : Table} (h : other ≠ table) : one table other = 0 :=
  Pi.single_eq_of_ne h 1

theorem allocateResolution_got (outputKind : OutputKind) (relr : Bool) :
    allocateResolution flags outputKind relr .got = (if .got ∈ flags ∧ ¬ flags.IsTls then 1 else 0)
        + (if .ifuncGotForAddress ∈ flags then 1 else 0) + numGotSlots flags := by
  have hrelative : one (relativeTable relr) .got = 0 := one_of_ne (relativeTable_ne relr).1.symm
  have hself : one Table.got .got = 1 := one_self _
  have hplt : one Table.pltGot .got = 0 := one_of_ne (by decide)
  have hrela : one Table.relaPlt .got = 0 := one_of_ne (by decide)
  have hgeneral : one Table.relaDynGeneral .got = 0 := one_of_ne (by decide)
  simp only [allocateResolution, numGotSlots, Pi.add_apply, apply_ite (fun f : Table → ℕ => f .got),
    hrelative, hself, hplt, hrela, hgeneral, Pi.zero_apply, ite_self, add_zero, Nat.reduceAdd]
  omega

theorem allocateResolution_pltGot (outputKind : OutputKind) (relr : Bool) :
    allocateResolution flags outputKind relr .pltGot
      = if (.got ∈ flags ∧ ¬ flags.IsTls) ∧ .plt ∈ flags then 1 else 0 := by
  have hrelative : one (relativeTable relr) .pltGot = 0 :=
    one_of_ne (relativeTable_ne relr).2.1.symm
  have hself : one Table.pltGot .pltGot = 1 := one_self _
  have hgot : one Table.got .pltGot = 0 := one_of_ne (by decide)
  have hrela : one Table.relaPlt .pltGot = 0 := one_of_ne (by decide)
  have hgeneral : one Table.relaDynGeneral .pltGot = 0 := one_of_ne (by decide)
  simp only [allocateResolution, Pi.add_apply, apply_ite (fun f : Table → ℕ => f .pltGot),
    hrelative, hself, hgot, hrela, hgeneral, Pi.zero_apply, ite_self, add_zero, zero_add, ite_and]

theorem slots_eq_iff (outputKind : OutputKind) (relr : Bool) :
    gotSlots flags = allocateResolution flags outputKind relr .got
        ∧ pltSlots flags = allocateResolution flags outputKind relr .pltGot
      ↔ (.plt ∈ flags → .got ∈ flags ∧ ¬ flags.IsTls)
        ∧ (.ifuncGotForAddress ∈ flags → .plt ∈ flags) := by
  rw [allocateResolution_got, allocateResolution_pltGot, gotSlots, pltSlots]
  by_cases hplt : .plt ∈ flags
  · by_cases hgot : .got ∈ flags ∧ ¬ flags.IsTls
    · by_cases hifunc : .ifuncGotForAddress ∈ flags <;>
        simp [hplt, hgot, hifunc, numGotSlots_eq_zero hgot.2]
    · simp [hplt, hgot]
  · by_cases htls : flags.IsTls
    · simp [hplt, htls]
    · simp [hplt, htls, numGotSlots_eq_zero htls]

/-! ### A thread-local variable -/

/-- The relocations that are reserved and written under one condition. -/
def agreedRelocations (linking : Linking) (flags : ValueFlags) : ℕ :=
  count (.gotTlsModule ∈ flags ∧ (isExecutable linking.outputKind = false ∨ .dynamic ∈ flags))
    + count (.gotTlsDescriptor ∈ flags)

section

variable (p q q' : Prop) [Decidable p] [Decidable q] [Decidable q'] (a b : ℕ)

theorem ite_add : (if p then a + b else 0) = count p * a + count p * b := by
  by_cases hp : p <;> simp [count, hp]

theorem ite_slots : (if p then a + (if q then b else 0) else 0) = count p * a + count (p ∧ q) * b := by
  by_cases hp : p <;> by_cases hq : q <;> simp [count, hp, hq]

theorem ite_slots₂ : (if p then a + a + (if q then b else 0) + (if q' then b else 0) else 0)
    = count p * (2 * a) + (count (p ∧ q) + count (p ∧ q')) * b := by
  by_cases hp : p <;> by_cases hq : q <;> by_cases hq' : q' <;> simp [count, hp, hq, hq'] <;> ring

variable {p q} in
theorem count_congr (h : p ↔ q) : count p = count q := if_congr h rfl rfl

end

theorem numGotSlots_eq (flags : ValueFlags) : numGotSlots flags
    = count (.gotTlsOffset ∈ flags) + count (.gotTlsModule ∈ flags) * 2
      + count (.gotTlsDescriptor ∈ flags) * 2 := by
  simp only [numGotSlots, count, ite_mul, zero_mul, one_mul]

theorem allocateResolution_of_isTls (htls : symbol.flags.IsTls)
    (hifunc : .ifuncGotForAddress ∉ symbol.flags) (table : Table) :
    allocateResolution symbol.flags linking.outputKind linking.isRelrEnabled table
      = numGotSlots symbol.flags * one Table.got table
        + (count (TpOffReserved linking symbol) + count (DtpOffReserved symbol)
          + agreedRelocations linking symbol.flags) * one Table.relaDynGeneral table := by
  have hoff : count (.gotTlsOffset ∈ symbol.flags
      ∧ (symbol.flags.isInterposable = true ∨ linking.outputKind = .sharedObject))
      = count (TpOffReserved linking symbol) := count_congr Iff.rfl
  have hmodule : count (.gotTlsModule ∈ symbol.flags ∧ symbol.flags.HasDynamicSymbol)
      = count (DtpOffReserved symbol) := count_congr Iff.rfl
  simp only [allocateResolution, htls, hifunc, not_true_eq_false, and_false, if_false, zero_add,
    Pi.add_apply, apply_ite (fun f : Table → ℕ => f table), Pi.zero_apply]
  rw [ite_slots, ite_slots₂, ite_add, numGotSlots_eq, agreedRelocations, hoff, hmodule]
  ring

theorem written_of_isTls {writer : TableWriter} (htls : symbol.flags.IsTls) (table : Table) :
    written writer symbol table = numGotSlots symbol.flags * one Table.got table
        + (count (TpOffWritten writer.linking symbol) + count (DtpOffWritten symbol)
          + agreedRelocations writer.linking symbol.flags) * one Table.relaDynGeneral table := by
  have hoff : count (.gotTlsOffset ∈ symbol.flags ∧ TpOffWritten writer.linking symbol)
      = count (TpOffWritten writer.linking symbol) :=
    count_congr (and_iff_right_of_imp And.left)
  have hmodule : count (.gotTlsModule ∈ symbol.flags ∧ DtpOffWritten symbol)
      = count (DtpOffWritten symbol) := count_congr (and_iff_right_of_imp And.left)
  have hdtpMod : (isExecutable writer.linking.outputKind = true ∧ .dynamic ∉ symbol.flags)
      ↔ ¬ (isExecutable writer.linking.outputKind = false ∨ .dynamic ∈ symbol.flags) := by
    simp
  have hslots : ∀ a b c : ℕ, a + b + (a + c) = a + a + b + c := by
    intro a b c
    ring
  have hdescriptor : ∀ a b : ℕ, a + (a + b) = 2 * a + b := by
    intro a b
    ring
  simp only [written, htls, if_true, hdtpMod, ite_not, Pi.add_apply,
    apply_ite (fun f : Table → ℕ => f table), Pi.zero_apply, hslots, hdescriptor]
  rw [ite_slots, ite_slots₂, ite_add, numGotSlots_eq, agreedRelocations, hoff, hmodule]
  ring

/-! ### Any other symbol -/

theorem allocateResolution_of_not_isTls (htls : ¬ symbol.flags.IsTls) (hgot : .got ∈ symbol.flags)
    (hifunc : .ifunc ∈ symbol.flags → .dynamic ∉ symbol.flags) :
    allocateResolution symbol.flags linking.outputKind linking.isRelrEnabled
      = written ⟨linking, linking.isRelrEnabled⟩ symbol := by
  obtain ⟨hoff, hmodule, hdescriptor⟩ := not_isTls htls
  have hrel : gotRelocation linking.outputKind linking.isRelrEnabled symbol.flags
      = if .ifunc ∈ symbol.flags then one Table.relaPlt
        else if symbol.flags.HasDynamicSymbol then one Table.relaDynGeneral
        else if symbol.flags.isAddress = true ∧ isRelocatable linking.outputKind = true then
          one (relativeTable linking.isRelrEnabled)
        else 0 := by
    by_cases hf : .ifunc ∈ symbol.flags
    · simp [gotRelocation, hf, hifunc hf]
    · simp only [gotRelocation, hf, not_false_eq_true, and_true, if_false]
      exact if_congr Iff.rfl rfl rfl
  simp only [allocateResolution, written, htls, hgot, hoff, hmodule, hdescriptor, hrel,
    not_false_eq_true, and_self, if_true, if_false, or_true, add_zero]
  rw [add_right_comm (one Table.got), add_assoc]

theorem written_relr (h : written ⟨linking, true⟩ symbol .relrDyn = 0) :
    written ⟨linking, false⟩ symbol = written ⟨linking, true⟩ symbol := by
  have hself : one Table.relrDyn .relrDyn = 1 := one_self _
  unfold written at h ⊢
  simp only [gotRelocation, relativeTable] at h ⊢
  split_ifs at h ⊢ <;> first | rfl | (simp [hself] at h)

theorem written_eq_iff {relr : Bool}
    (hrelr : relr = linking.isRelrEnabled ∨ linking.isRelrEnabled = true ∧ relr = false
      ∧ allocateResolution symbol.flags linking.outputKind true .relrDyn = 0)
    (hplt : .plt ∈ symbol.flags → .got ∈ symbol.flags ∧ ¬ symbol.flags.IsTls)
    (hifuncGot : .ifuncGotForAddress ∈ symbol.flags → .plt ∈ symbol.flags) :
    written ⟨linking, relr⟩ symbol
        = allocateResolution symbol.flags linking.outputKind linking.isRelrEnabled
      ↔ (.got ∈ symbol.flags → ¬ symbol.flags.IsTls → .ifunc ∈ symbol.flags →
          .dynamic ∉ symbol.flags)
        ∧ count (TpOffReserved linking symbol) + count (DtpOffReserved symbol)
          = count (TpOffWritten linking symbol) + count (DtpOffWritten symbol) := by
  by_cases htls : symbol.flags.IsTls
  · have hifuncGot : .ifuncGotForAddress ∉ symbol.flags := fun h =>
      (hplt (hifuncGot h)).2 htls
    refine ⟨fun h => ⟨fun _ hnot => absurd htls hnot, ?_⟩, fun h => funext fun table => ?_⟩
    · have hgeneral := congrFun h .relaDynGeneral
      rw [written_of_isTls htls, allocateResolution_of_isTls htls hifuncGot, one_self,
        one_of_ne (by decide), mul_zero, zero_add, mul_one, zero_add, mul_one]
        at hgeneral
      exact (add_right_cancel hgeneral).symm
    · rw [written_of_isTls htls, allocateResolution_of_isTls htls hifuncGot, h.2]
  have hcount : count (TpOffReserved linking symbol) + count (DtpOffReserved symbol)
      = count (TpOffWritten linking symbol) + count (DtpOffWritten symbol) := by
    obtain ⟨hoff, hmodule, _⟩ := not_isTls htls
    simp [count, TpOffReserved, DtpOffReserved, TpOffWritten, DtpOffWritten, hoff, hmodule]
  by_cases hgot : .got ∈ symbol.flags
  · refine ⟨fun h => ⟨fun _ _ hf hdyn => ?_, hcount⟩, fun h => ?_⟩
    · -- the relocation of an ifunc is reserved in its own table and written in the general one
      have hrela := congrFun h .relaPlt
      have hrelative : ∀ b, one (relativeTable b) .relaPlt = 0 := fun b =>
        one_of_ne (relativeTable_ne b).2.2.1.symm
      have hone : one Table.relaPlt .relaPlt = 1 := one_self _
      have hother : one Table.got .relaPlt = 0 ∧ one Table.pltGot .relaPlt = 0
          ∧ one Table.relaDynGeneral .relaPlt = 0 :=
        ⟨one_of_ne (by decide), one_of_ne (by decide), one_of_ne (by decide)⟩
      obtain ⟨hoff, hmodule, hdescriptor⟩ := not_isTls htls
      simp [written, gotRelocation, allocateResolution, htls, hgot, hf, hdyn, hoff, hmodule,
        hdescriptor, hrelative, hone, hother, apply_ite (fun f : Table → ℕ => f .relaPlt)] at hrela
    · have hreserved : allocateResolution symbol.flags linking.outputKind linking.isRelrEnabled
          = written ⟨linking, linking.isRelrEnabled⟩ symbol :=
        allocateResolution_of_not_isTls htls hgot (h.1 hgot htls)
      rcases hrelr with rfl | ⟨henabled, rfl, hzero⟩
      · exact hreserved.symm
      · rw [henabled] at hreserved ⊢
        rw [hreserved]
        exact written_relr (hreserved ▸ hzero)
  · have hplt' : .plt ∉ symbol.flags := fun h => hgot (hplt h).1
    have hifuncGot' : .ifuncGotForAddress ∉ symbol.flags := fun h => hplt' (hifuncGot h)
    obtain ⟨hoff, hmodule, hdescriptor⟩ := not_isTls htls
    refine ⟨fun _ => ⟨fun h => absurd h hgot, hcount⟩, fun _ => ?_⟩
    simp [written, allocateResolution, htls, hgot, hplt', hifuncGot', hoff, hmodule, hdescriptor]

end

end Sld.Dynamic.SymbolSlots
