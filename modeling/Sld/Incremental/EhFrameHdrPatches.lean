/-
# `Incremental.EhFrameHdrPatches` — the search table after an update

Each of the three ways to patch `.eh_frame_hdr` leads to the same place:
the count and the table of the entries that should be there, up to some
bound, with the slots past the count cleared (`Rewriting.target`).  Before
the first rewritten slot only the pointers of changed entries are written.

The loop over the changes keeps what the entries say and which of them are
changed or removed (`Tracks`).  Together: `patched_table_is_live`.
-/
import Sld.Elf.SectionHeaders
import Sld.Incremental.EhFrameHdr
import Sld.Incremental.PatchOrder

namespace Sld.Incremental

open Store (Patch window splice eraseAll)
open Text.Reader (bind_eq_ok orError_eq_ok)
open List (append_assoc append_nil flatMap_cons getElem?_eq_getElem length_append length_drop
  length_map map_append map_cons map_nil mem_append mem_cons mem_cons_self mem_filter mem_map
  mem_singleton not_mem_nil pairwise_cons replicate)
open EhFrameHdrChange (adjust removes)
open UInt64 (ofNat)

/-! ## Tables and their bytes -/

section

variable {entries : List EhFrameHdrEntry} {bytes rest : List UInt8} {count : ℕ}

@[simp] theorem length_readEntries : (readEntries count bytes).length = count := by
  induction count generalizing bytes with
  | zero => rfl
  | succ count ih => rw [readEntries, List.length_cons, ih]

theorem flatMap_readEntries (h : 8 * count ≤ bytes.length) :
    (readEntries count bytes).flatMap EhFrameHdrEntry.bytes = bytes.take (8 * count) := by
  induction count generalizing bytes with
  | zero => rfl
  | succ count ih =>
    have hchunk : (bytes.take 8).length = 8 := by
      rw [List.length_take]
      omega
    have hrest : 8 * count ≤ (bytes.drop 8).length := by
      rw [length_drop]
      omega
    rw [readEntries, flatMap_cons, EhFrameHdrEntry.bytes_ofBytes hchunk, ih hrest,
      Nat.mul_succ, Nat.add_comm, List.take_add]

theorem readEntries_flatMap :
    readEntries entries.length (entries.flatMap EhFrameHdrEntry.bytes ++ rest) = entries := by
  induction entries with
  | nil => rfl
  | cons entry entries ih =>
    have hentry : entry.bytes.length = 8 := entry.length_bytes
    rw [List.length_cons, readEntries, flatMap_cons, append_assoc, ← hentry,
      List.take_left, List.drop_left, EhFrameHdrEntry.ofBytes_bytes, ih]

theorem sortedByFramePtr_iff : sortedByFramePtr entries = true ↔
    entries.Pairwise fun a b => a.framePtr.toInt ≤ b.framePtr.toInt := by
  induction entries with
  | nil => exact iff_of_true rfl List.Pairwise.nil
  | cons first entries ih =>
    cases entries with
    | nil => exact iff_of_true rfl (List.pairwise_singleton _ _)
    | cons second rest =>
      rw [sortedByFramePtr, Bool.and_eq_true, decide_eq_true_eq, ih]
      constructor
      · rintro ⟨hle, hrest⟩
        refine pairwise_cons.mpr ⟨?_, hrest⟩
        intro b hb
        rcases mem_cons.mp hb with rfl | hb
        · exact hle
        · exact hle.trans ((pairwise_cons.mp hrest).1 b hb)
      · intro h
        obtain ⟨hfirst, hrest⟩ := pairwise_cons.mp h
        exact ⟨hfirst second mem_cons_self, hrest⟩

end

namespace EhFrameHdrTable

variable {table : EhFrameHdrTable} {output : List UInt8}

/-- Where the last slot ends. -/
def stop (table : EhFrameHdrTable) : ℕ := table.entryOffset table.capacity

theorem entryOffset_eq (index : ℕ) : table.entryOffset index = table.start + 8 + (4 + 8 * index) := by
  rw [entryOffset, ehFrameHdrHeaderSize, ehFrameHdrEntrySize]
  omega

/-- The table is in the output. -/
structure Holds (table : EhFrameHdrTable) (output : List UInt8) : Prop where
  addressable : table.stop < 2 ^ 64
  inside : table.stop ≤ output.length
  count : ehFrameHdrEntryCount output table.start = table.entries.length
  fits : table.entries.length ≤ table.capacity
  read : readEntries table.entries.length (output.drop (table.entryOffset 0)) = table.entries

theorem ehFrameHdrTable_eq_ok {hdr : ParsedSection} :
    ehFrameHdrTable hdr output = .ok table ↔ ∃ offset size, hdr.fileRange = some (offset, size) ∧
      table.start = offset.toNat ∧ table.stop = offset.toNat + size.toNat ∧ table.Holds output := by
  unfold ehFrameHdrTable
  constructor
  · intro h
    obtain ⟨⟨offset, size⟩, hrange, h⟩ := bind_eq_ok.mp h
    dsimp only at h
    split at h
    · cases h
    next hsize =>
    split at h
    · cases h
    next hover =>
    split at h
    · cases h
    next hbound =>
    split at h
    · cases h
    next hcount =>
      cases h
      rw [ehFrameHdrHeaderSize, ehFrameHdrEntrySize] at *
      have hstop : offset.toNat + 12 + (size.toNat - 12) / 8 * 8 = offset.toNat + size.toNat := by
        omega
      refine ⟨offset, size, orError_eq_ok.mp hrange, rfl, hstop, ?_, ?_, ?_, ?_, ?_⟩
      · show offset.toNat + 12 + (size.toNat - 12) / 8 * 8 < 2 ^ 64
        omega
      · show offset.toNat + 12 + (size.toNat - 12) / 8 * 8 ≤ output.length
        omega
      · rw [length_readEntries]
      · rw [length_readEntries]
        exact Nat.not_lt.mp hcount
      · rw [length_readEntries]
        rfl
  · rintro ⟨offset, size, hrange, hstart, hstop, h⟩
    obtain ⟨start, capacity, entries⟩ := table
    obtain rfl : start = offset.toNat := hstart
    have hsize : offset.toNat + 12 + capacity * 8 = offset.toNat + size.toNat := hstop
    have haddressable : offset.toNat + 12 + capacity * 8 < 2 ^ 64 := h.addressable
    have hinside : offset.toNat + 12 + capacity * 8 ≤ output.length := h.inside
    have hcapacity : (size.toNat - 12) / 8 = capacity := by omega
    have hcount : ehFrameHdrEntryCount output offset.toNat = entries.length := h.count
    have hfits : entries.length ≤ capacity := h.fits
    have hread : readEntries entries.length (output.drop (offset.toNat + 12)) = entries := h.read
    refine bind_eq_ok.mpr ⟨(offset, size), orError_eq_ok.mpr hrange, ?_⟩
    dsimp only
    rw [ehFrameHdrHeaderSize, ehFrameHdrEntrySize, hcapacity, hcount, hread, if_neg (by omega),
      if_neg (by omega), if_neg (by omega), if_neg (by omega)]
    rfl

theorem Holds.getElem? (h : table.Holds output) {i k : ℕ} (hi : i < table.entries.length)
    (hk : k < 8) :
    output[table.entryOffset i + k]? = table.entries[i]?.bind fun entry => entry.bytes[k]? := by
  have hstop : table.entryOffset 0 + 8 * table.entries.length ≤ output.length := by
    have hfits := h.fits
    have hinside := h.inside
    rw [stop] at hinside
    simp only [entryOffset_eq] at *
    omega
  have hlen : 8 * table.entries.length ≤ (output.drop (table.entryOffset 0)).length := by
    rw [length_drop]
    omega
  have hbytes : (table.entries.flatMap EhFrameHdrEntry.bytes)[8 * i + k]? =
      output[table.entryOffset i + k]? := by
    rw [← h.read, flatMap_readEntries hlen, List.getElem?_take_of_lt (by omega),
      List.getElem?_drop]
    refine congrArg (output[·]?) ?_
    rw [entryOffset_eq, entryOffset_eq]
    omega
  rw [← hbytes]
  exact Store.getElem?_flatMap EhFrameHdrEntry.length_bytes _ hk

end EhFrameHdrTable

/-! ## Plain patches -/

namespace SectionPatch

variable {offset i : ℕ} {data old target : List UInt8}

theorem writtenBytes_plain (h : old.length = data.length) :
    (plain offset data).writtenBytes old = .ok data := by
  refine writtenBytes_eq_ok.mpr ⟨Nat.le_of_eq h.symm, data, rfl, ?_⟩
  rw [h, Nat.sub_self, List.replicate_zero, append_nil]

theorem range_plain (h : offset + data.length < 2 ^ 64) :
    (plain offset data).range = (offset, offset + data.length) := by
  have hoff : (ofNat offset).toNat = offset :=
    UInt64.toNat_ofNat_of_lt' (Nat.lt_of_le_of_lt (Nat.le_add_right _ _) h)
  have hsize : (ofNat data.length).toNat = data.length :=
    UInt64.toNat_ofNat_of_lt' (Nat.lt_of_le_of_lt (Nat.le_add_left _ _) h)
  show ((ofNat offset).toNat, _ + (ofNat data.length).toNat) = _
  rw [hsize]
  show ((ofNat offset).toNat, (ofNat offset).toNat + data.length) = _
  rw [hoff]

theorem owns_plain (h : offset + data.length < 2 ^ 64) :
    (plain offset data).toPatch.Owns i ↔ offset ≤ i ∧ i < offset + data.length := by
  have hrange := range_plain h
  show (plain offset data).range.1 ≤ i ∧ i < (plain offset data).range.2 ↔ _
  rw [hrange]

theorem writes_plain (h : offset + data.length < 2 ^ 64) (hin : offset + data.length ≤ target.length)
    (hdata : window target offset data.length = data) :
    (plain offset data).toPatch.Writes target := by
  have hrange := range_plain h
  have hstart : (plain offset data).toPatch.start = offset := congrArg Prod.fst hrange
  have hsize : (plain offset data).toPatch.size = data.length :=
    UInt64.toNat_ofNat_of_lt' (Nat.lt_of_le_of_lt (Nat.le_add_left _ _) h)
  refine ⟨by rw [hstart, hsize]; exact hin, fun old hold => ?_⟩
  rw [hstart, hsize, hdata]
  exact writtenBytes_plain (hold.trans hsize)

end SectionPatch

/-! ## The rewritten table -/

/-- A slot of the table. -/
def entrySlot : Option EhFrameHdrEntry → List UInt8
  | some entry => entry.bytes
  | none => List.replicate 8 0

@[simp] theorem length_entrySlot (slot : Option EhFrameHdrEntry) : (entrySlot slot).length = 8 := by
  cases slot with
  | none => rfl
  | some entry => exact entry.length_bytes

/-- The slots up to a bound, the first of them used. -/
def tableSlots (entries : List EhFrameHdrEntry) (bound : ℕ) : List (Option EhFrameHdrEntry) :=
  entries.map some ++ List.replicate (bound - entries.length) none

section

variable {entries : List EhFrameHdrEntry} {bound first i : ℕ}

theorem length_tableSlots (h : entries.length ≤ bound) : (tableSlots entries bound).length = bound := by
  rw [tableSlots, length_append, length_map, List.length_replicate]
  omega

theorem getElem?_tableSlots (h : i < bound) : (tableSlots entries bound)[i]? = some entries[i]? := by
  by_cases hi : i < entries.length
  · rw [tableSlots, List.getElem?_append_left (by rw [length_map]; exact hi), List.getElem?_map,
      getElem?_eq_getElem hi]
    rfl
  · rw [tableSlots, List.getElem?_append_right (by rw [length_map]; omega), length_map,
      List.getElem?_replicate, if_pos (by omega), List.getElem?_eq_none (by omega)]

theorem drop_tableSlots (h : first ≤ entries.length) :
    (tableSlots entries bound).drop first = tableSlots (entries.drop first) (bound - first) := by
  have hsub : bound - entries.length = bound - first - (entries.length - first) := by omega
  rw [tableSlots, List.drop_append_of_le_length (by rw [length_map]; exact h), ← List.map_drop,
    hsub, tableSlots, length_drop]

theorem flatMap_tableSlots : (tableSlots entries bound).flatMap entrySlot =
    entries.flatMap EhFrameHdrEntry.bytes ++ replicate (8 * (bound - entries.length)) 0 := by
  have hfree : ∀ n, (replicate n none).flatMap entrySlot = replicate (8 * n) 0 := by
    intro n
    induction n with
    | zero => rfl
    | succ n ih =>
      rw [List.replicate_succ, flatMap_cons, ih, Nat.mul_succ, Nat.add_comm, List.replicate_add]
      rfl
  rw [tableSlots, List.flatMap_append, List.flatMap_map, hfree]
  rfl

theorem resize_flatMap (h : entries.length ≤ bound) :
    resize (entries.flatMap EhFrameHdrEntry.bytes) (bound * 8) =
      (tableSlots entries bound).flatMap entrySlot := by
  have hlen := Store.length_flatMap_encode EhFrameHdrEntry.length_bytes entries
  have hfree : bound * 8 - 8 * entries.length = 8 * (bound - entries.length) := by omega
  rw [resize, flatMap_tableSlots, List.take_of_length_le (by omega), hlen, hfree]

end

/-- The count and the slots up to a bound. -/
def countedSlots (entries : List EhFrameHdrEntry) (bound : ℕ) : List UInt8 :=
  leBytes entries.length 4 ++ (tableSlots entries bound).flatMap entrySlot

variable {entries : List EhFrameHdrEntry}

theorem length_countedSlots {bound : ℕ}
    (h : entries.length ≤ bound) : (countedSlots entries bound).length = 4 + 8 * bound := by
  rw [countedSlots, length_append, length_leBytes,
    Store.length_flatMap_encode length_entrySlot, length_tableSlots h]

section

variable {entries : List EhFrameHdrEntry} {bound first i k : ℕ} {entry : EhFrameHdrEntry}

theorem window_countedSlots_count : window (countedSlots entries bound) 0 4 =
    leBytes entries.length 4 := by
  rw [window, List.drop_zero, countedSlots, List.take_left' (length_leBytes _ _)]

theorem drop_countedSlots : (countedSlots entries bound).drop (4 + 8 * i) =
    ((tableSlots entries bound).drop i).flatMap entrySlot := by
  rw [← List.drop_drop]
  exact Store.drop_flatMap length_entrySlot _ _

theorem window_countedSlots_slots (h : first ≤ entries.length) (hbound : entries.length ≤ bound) :
    window (countedSlots entries bound) (4 + 8 * first) (8 * (bound - first)) =
      (tableSlots (entries.drop first) (bound - first)).flatMap entrySlot := by
  rw [window, drop_countedSlots, drop_tableSlots h]
  refine List.take_of_length_le (Nat.le_of_eq ?_)
  rw [Store.length_flatMap_encode length_entrySlot, length_tableSlots]
  rw [length_drop]
  omega

theorem window_countedSlots_pointer (h : entries[i]? = some entry) (hi : i < bound) :
    window (countedSlots entries bound) (4 + 8 * i) 4 = i32LeBytes entry.framePtr := by
  have hslot : (tableSlots entries bound)[i]? = some (some entry) := by
    rw [getElem?_tableSlots hi, h]
  obtain ⟨hlt, hget⟩ := List.getElem?_eq_some_iff.mp hslot
  rw [window, drop_countedSlots, List.drop_eq_getElem_cons hlt, hget]
  show List.take 4 ((i32LeBytes entry.framePtr ++ _) ++ _) = _
  rw [append_assoc, List.take_left' (length_i32LeBytes _)]

theorem getElem?_countedSlots (hi : i < bound) (hk : k < 8) :
    (countedSlots entries bound)[4 + 8 * i + k]? = (entrySlot entries[i]?)[k]? := by
  have hlen : (leBytes entries.length 4).length = 4 := length_leBytes _ _
  rw [countedSlots, List.getElem?_append_right (by omega), hlen, Nat.add_assoc,
    Nat.add_sub_cancel_left, Store.getElem?_flatMap length_entrySlot _ hk, getElem?_tableSlots hi]
  rfl

end

namespace EhFrameHdrTable

variable {table : EhFrameHdrTable} {output : List UInt8} {live : List EhFrameHdrEntry}
  {first bound i k : ℕ} {entry : EhFrameHdrEntry} {patches : List SectionPatch}

/-- The output with the count and the slots of the live entries, up to a bound. -/
def target (table : EhFrameHdrTable) (output : List UInt8) (live : List EhFrameHdrEntry)
    (bound : ℕ) : List UInt8 :=
  splice output (table.start + 8) (countedSlots live bound)

/-- The patches lead to the live entries: what is not written is right as it is. -/
structure Rewriting (table : EhFrameHdrTable) (output : List UInt8) (live : List EhFrameHdrEntry)
    (first bound : ℕ) (patches : List SectionPatch) : Prop where
  holds : table.Holds output
  first_le : first ≤ live.length
  live_le : live.length ≤ bound
  bound_le : bound ≤ table.capacity
  old_le : first ≤ table.entries.length
  count_lt : live.length < 2 ^ 32
  mem : ∀ p ∈ patches, p = table.countPatch live.length ∨
    p = table.entriesPatch first bound (live.drop first) ∨
    ∃ i < first, ∃ entry, live[i]? = some entry ∧ p = table.pointerPatch i entry
  count : table.countPatch live.length ∈ patches ∨ live.length = table.entries.length
  slots : table.entriesPatch first bound (live.drop first) ∈ patches ∨ first = bound
  pointers : ∀ i < first, ∀ entry old, live[i]? = some entry → table.entries[i]? = some old →
    entry.frameInfoPtr = old.frameInfoPtr ∧
      (entry.framePtr = old.framePtr ∨ table.pointerPatch i entry ∈ patches)

namespace Rewriting

variable (h : table.Rewriting output live first bound patches)

include h

theorem target_inside : table.start + 8 + (countedSlots live bound).length ≤ output.length := by
  have hinside := h.holds.inside
  have hbound := h.bound_le
  rw [stop, entryOffset_eq] at hinside
  rw [length_countedSlots h.live_le]
  omega

theorem length_target : (table.target output live bound).length = output.length :=
  Store.length_splice h.target_inside

theorem entryOffset_lt (hi : i ≤ bound) : table.entryOffset i < 2 ^ 64 := by
  have hstop := h.holds.addressable
  have hbound := h.bound_le
  rw [stop] at hstop
  simp only [entryOffset_eq] at *
  omega

theorem entryOffset_le (hi : i ≤ bound) : table.entryOffset i ≤ output.length := by
  have hinside := h.holds.inside
  have hbound := h.bound_le
  rw [stop] at hinside
  simp only [entryOffset_eq] at *
  omega

theorem window_target (hk : k + i ≤ 4 + 8 * bound) :
    window (table.target output live bound) (table.start + 8 + k) i =
      window (countedSlots live bound) k i := by
  refine Store.window_splice_inside h.target_inside ?_
  rw [length_countedSlots h.live_le]
  exact hk

theorem getElem?_target (hi : i < bound) (hk : k < 8) :
    (table.target output live bound)[table.entryOffset i + k]? = (entrySlot live[i]?)[k]? := by
  rw [entryOffset_eq, Nat.add_assoc, target, Store.getElem?_splice_inside h.target_inside]
  · exact getElem?_countedSlots hi hk
  · rw [length_countedSlots h.live_le]
    omega

theorem entriesPatch_eq : table.entriesPatch first bound (live.drop first) =
    .plain (table.entryOffset first) ((tableSlots (live.drop first) (bound - first)).flatMap
      entrySlot) := by
  rw [entriesPatch, ehFrameHdrEntrySize, resize_flatMap]
  rw [length_drop]
  have hlive := h.live_le
  omega

theorem length_entriesPatch : ((tableSlots (live.drop first) (bound - first)).flatMap
    entrySlot).length = 8 * (bound - first) := by
  rw [Store.length_flatMap_encode length_entrySlot, length_tableSlots]
  rw [length_drop]
  have hlive := h.live_le
  omega

theorem writes (p : SectionPatch) (hp : p ∈ patches) :
    p.toPatch.Writes (table.target output live bound) := by
  have hlen := h.length_target
  rcases h.mem p hp with rfl | rfl | ⟨i, hi, entry, hentry, rfl⟩
  · have hoff := h.entryOffset_lt (Nat.zero_le bound)
    have hinside := h.entryOffset_le (Nat.zero_le bound)
    rw [entryOffset_eq] at hoff hinside
    refine SectionPatch.writes_plain ?_ ?_ ?_
    · rw [length_leBytes]
      omega
    · rw [length_leBytes]
      omega
    · rw [length_leBytes]
      exact (h.window_target (k := 0) (by omega)).trans window_countedSlots_count
  · have hfirst : first ≤ bound := h.first_le.trans h.live_le
    have hoff := h.entryOffset_lt (Nat.le_refl bound)
    have hinside := h.entryOffset_le (Nat.le_refl bound)
    rw [h.entriesPatch_eq]
    rw [entryOffset_eq] at hoff hinside
    refine SectionPatch.writes_plain ?_ ?_ ?_
    · rw [h.length_entriesPatch, entryOffset_eq]
      omega
    · rw [h.length_entriesPatch, entryOffset_eq]
      omega
    · rw [h.length_entriesPatch, entryOffset_eq, h.window_target (by omega)]
      exact window_countedSlots_slots h.first_le h.live_le
  · have hbound : i + 1 ≤ bound := hi.trans_le (h.first_le.trans h.live_le)
    have hoff := h.entryOffset_lt hbound
    have hinside := h.entryOffset_le hbound
    rw [entryOffset_eq] at hoff hinside
    refine SectionPatch.writes_plain ?_ ?_ ?_
    · rw [length_i32LeBytes, entryOffset_eq]
      omega
    · rw [length_i32LeBytes, entryOffset_eq]
      omega
    · rw [length_i32LeBytes, entryOffset_eq, h.window_target (by omega)]
      exact window_countedSlots_pointer hentry hbound

theorem covers_count (i : ℕ) : (table.countPatch live.length).toPatch.Owns i ↔
    table.start + 8 ≤ i ∧ i < table.entryOffset 0 := by
  have hoff := h.entryOffset_lt (Nat.zero_le bound)
  rw [entryOffset_eq] at hoff ⊢
  rw [countPatch, SectionPatch.owns_plain (by rw [length_leBytes]; omega), length_leBytes]

theorem covers_entries (i : ℕ) : (table.entriesPatch first bound (live.drop first)).toPatch.Owns i ↔
    table.entryOffset first ≤ i ∧ i < table.entryOffset bound := by
  have hoff := h.entryOffset_lt (Nat.le_refl bound)
  have hfirst : first ≤ bound := h.first_le.trans h.live_le
  rw [h.entriesPatch_eq, SectionPatch.owns_plain, h.length_entriesPatch]
  · rw [entryOffset_eq, entryOffset_eq]
    omega
  · rw [h.length_entriesPatch]
    simp only [entryOffset_eq] at *
    omega

variable {j : ℕ}

theorem covers_pointer (hj : j < first) (i : ℕ) : (table.pointerPatch j entry).toPatch.Owns i ↔
      table.entryOffset j ≤ i ∧ i < table.entryOffset j + 4 := by
  have hoff := h.entryOffset_lt (hj.trans_le (h.first_le.trans h.live_le))
  rw [pointerPatch, SectionPatch.owns_plain, length_i32LeBytes]
  rw [length_i32LeBytes]
  simp only [entryOffset_eq] at *
  omega

theorem getElem?_before (hi : i < first) (hk : k < 8)
    (hfree : ∀ p ∈ patches, ¬ p.toPatch.Owns (table.entryOffset i + k)) :
    output[table.entryOffset i + k]? = (entrySlot live[i]?)[k]? := by
  have hlive : i < live.length := hi.trans_le h.first_le
  have hold : i < table.entries.length := hi.trans_le h.old_le
  obtain ⟨hinfo, hptr⟩ := h.pointers i hi live[i] table.entries[i] (getElem?_eq_getElem hlive)
    (getElem?_eq_getElem hold)
  rw [h.holds.getElem? hold hk, getElem?_eq_getElem hlive, getElem?_eq_getElem hold]
  show (i32LeBytes _ ++ i32LeBytes _)[k]? = (i32LeBytes _ ++ i32LeBytes _)[k]?
  rw [hinfo]
  rcases hptr with hsame | hpatch
  · rw [hsame]
  · -- the pointer has a patch of its own
    have hafter : 4 ≤ k := by
      refine Nat.not_lt.mp fun hlt => hfree _ hpatch ?_
      rw [h.covers_pointer hi]
      omega
    rw [List.getElem?_append_right (by rw [length_i32LeBytes]; exact hafter),
      List.getElem?_append_right (by rw [length_i32LeBytes]; exact hafter), length_i32LeBytes,
      length_i32LeBytes]

theorem getElem?_free (i : ℕ) (hfree : ∀ p ∈ patches, ¬ p.toPatch.Owns i) :
    output[i]? = (table.target output live bound)[i]? := by
  have hinside := h.target_inside
  have hlen := length_countedSlots h.live_le
  have hcount : window output (table.start + 8) 4 = leBytes live.length 4 ∨
      ∀ i, table.start + 8 ≤ i → i < table.start + 12 → ∃ p ∈ patches, p.toPatch.Owns i := by
    rcases h.count with hmem | hsame
    · refine .inr fun i hle hlt => ⟨_, hmem, ?_⟩
      rw [h.covers_count, entryOffset_eq]
      omega
    · have hwindow : (window output (table.start + 8) 4).length = 4 :=
        Store.length_window (by omega)
      refine .inl ?_
      rw [hsame, ← h.holds.count]
      exact (hwindow ▸ leBytes_ofLeBytes _).symm
  by_cases hin : table.start + 8 ≤ i ∧ i < table.start + 8 + (countedSlots live bound).length
  · obtain ⟨hstart, hend⟩ := hin
    by_cases hheader : i < table.start + 12
    · rcases hcount with hwindow | howned
      · obtain ⟨k, rfl⟩ := Nat.exists_eq_add_of_le hstart
        have hk : k < 4 := by omega
        have htarget : window (table.target output live bound) (table.start + 8) 4 =
            leBytes live.length 4 :=
          (h.window_target (k := 0) (by omega)).trans window_countedSlots_count
        rw [← Store.getElem?_window hk, hwindow, ← htarget, Store.getElem?_window hk]
      · obtain ⟨p, hp, howns⟩ := howned i hstart hheader
        exact absurd howns (hfree p hp)
    · -- position `k` of slot `q`
      obtain ⟨q, k, hq, hk, rfl⟩ : ∃ q k, q < bound ∧ k < 8 ∧ i = table.entryOffset q + k := by
        refine ⟨(i - (table.start + 12)) / 8, (i - (table.start + 12)) % 8, ?_, ?_, ?_⟩
        · omega
        · omega
        · rw [entryOffset_eq]
          omega
      rw [h.getElem?_target hq hk]
      by_cases hfirst : q < first
      · exact h.getElem?_before hfirst hk hfree
      · rcases h.slots with hmem | hsame
        · refine absurd ?_ (hfree _ hmem)
          rw [h.covers_entries]
          simp only [entryOffset_eq] at *
          omega
        · omega
  · exact (Store.getElem?_splice_outside h.target_inside (by omega)).symm

theorem applyPatches_eq : applyPatches patches output = .ok (table.target output live bound) := by
  refine Patch.applyAll_eq_target h.length_target.symm ?_ ?_
  · intro q hq
    obtain ⟨p, hp, rfl⟩ := mem_map.mp hq
    exact h.writes p hp
  · intro i hi
    exact h.getElem?_free i fun p hp => hi _ (List.mem_map_of_mem hp)

theorem holds_target :
    Holds ⟨table.start, table.capacity, live⟩ (table.target output live bound) := by
  have hinside := h.target_inside
  refine ⟨h.holds.addressable, ?_, ?_, h.live_le.trans h.bound_le, ?_⟩
  · rw [h.length_target]
    exact h.holds.inside
  · have hwindow : window (table.target output live bound) (table.start + 8) 4 =
        leBytes live.length 4 :=
      (h.window_target (k := 0) (by omega)).trans window_countedSlots_count
    rw [ehFrameHdrEntryCount, hwindow, ofLeBytes_leBytes]
    exact Nat.mod_eq_of_lt h.count_lt
  · show readEntries live.length ((table.target output live bound).drop (table.entryOffset 0)) = live
    have hdrop : (table.target output live bound).drop (table.entryOffset 0) =
        live.flatMap EhFrameHdrEntry.bytes ++ (replicate (8 * (bound - live.length)) 0 ++
          output.drop (table.start + 8 + (countedSlots live bound).length)) := by
      have hpre : (output.take (table.start + 8) ++ leBytes live.length 4).length =
          table.entryOffset 0 := by
        rw [length_append, List.length_take, length_leBytes, entryOffset_eq]
        omega
      rw [target, splice, countedSlots, flatMap_tableSlots, ← append_assoc, append_assoc,
        List.drop_left' hpre, append_assoc]
    rw [hdrop, readEntries_flatMap]

theorem inside (p : SectionPatch) (hp : p ∈ patches) (i : ℕ) (hi : p.toPatch.Owns i) :
    table.start + 8 ≤ i ∧ i < table.stop := by
  have hbound := h.bound_le
  have hfirst := h.first_le.trans h.live_le
  rw [stop]
  rcases h.mem p hp with rfl | rfl | ⟨j, hj, entry, -, rfl⟩
  · rw [h.covers_count] at hi
    simp only [entryOffset_eq] at *
    omega
  · rw [h.covers_entries] at hi
    simp only [entryOffset_eq] at *
    omega
  · rw [h.covers_pointer hj] at hi
    simp only [entryOffset_eq] at *
    omega

theorem cleared (p : SectionPatch) (hp : p ∈ patches) (i : ℕ) (hi : p.toPatch.Owns i)
    (hpast : table.entryOffset live.length ≤ i) :
    (table.target output live bound)[i]? = some 0 := by
  have hfirst := h.first_le
  have hend : i < table.entryOffset bound := by
    rcases h.mem p hp with rfl | rfl | ⟨j, hj, entry, -, rfl⟩
    · rw [h.covers_count] at hi
      simp only [entryOffset_eq] at *
      omega
    · exact ((h.covers_entries i).mp hi).2
    · rw [h.covers_pointer hj] at hi
      simp only [entryOffset_eq] at *
      omega
  obtain ⟨q, k, hlt, hq, hk, rfl⟩ :
      ∃ q k, live.length ≤ q ∧ q < bound ∧ k < 8 ∧ i = table.entryOffset q + k := by
    rw [entryOffset_eq] at hend hpast
    refine ⟨(i - (table.start + 12)) / 8, (i - (table.start + 12)) % 8, ?_, ?_, ?_, ?_⟩
    · omega
    · omega
    · omega
    · rw [entryOffset_eq]
      omega
  rw [h.getElem?_target hq hk, List.getElem?_eq_none hlt]
  show (replicate 8 0)[k]? = some 0
  rw [List.getElem?_replicate, if_pos hk]

theorem disjoint_count_entries : (table.countPatch live.length).toPatch.Disjoint
    (table.entriesPatch first bound (live.drop first)).toPatch := by
  intro i hi hi'
  rw [h.covers_count] at hi
  rw [h.covers_entries] at hi'
  simp only [entryOffset_eq] at *
  omega

theorem disjoint_pointer_count (hj : j < first) :
    (table.pointerPatch j entry).toPatch.Disjoint (table.countPatch live.length).toPatch := by
  intro i hi hi'
  rw [h.covers_pointer hj] at hi
  rw [h.covers_count] at hi'
  simp only [entryOffset_eq] at *
  omega

theorem disjoint_pointer_entries (hj : j < first) : (table.pointerPatch j entry).toPatch.Disjoint
      (table.entriesPatch first bound (live.drop first)).toPatch := by
  intro i hi hi'
  rw [h.covers_pointer hj] at hi
  rw [h.covers_entries] at hi'
  simp only [entryOffset_eq] at *
  omega

theorem disjoint_pointer_pointer {entry' : EhFrameHdrEntry} {k : ℕ} (hj : j < first)
    (hk : k < first) (hne : j < k) :
    (table.pointerPatch j entry).toPatch.Disjoint (table.pointerPatch k entry').toPatch := by
  intro i hi hi'
  rw [h.covers_pointer hj] at hi
  rw [h.covers_pointer hk] at hi'
  simp only [entryOffset_eq] at *
  omega

theorem disjoint_pointerPatches {indices : List ℕ} (hlt : ∀ i ∈ indices, i < first)
    (hsorted : indices.Pairwise (· < ·)) :
    ((table.pointerPatches live indices).map SectionPatch.toPatch).Pairwise Patch.Disjoint := by
  rw [List.pairwise_map]
  have hpairs : indices.Pairwise fun i j => i < first ∧ j < first ∧ i < j :=
    hsorted.imp_of_mem fun hi hj hij => ⟨hlt _ hi, hlt _ hj, hij⟩
  refine List.Pairwise.filterMap _ ?_ hpairs
  rintro i j ⟨hi, hj, hij⟩ p hp q hq
  obtain ⟨entry, -, rfl⟩ := Option.map_eq_some_iff.mp hp
  obtain ⟨entry', -, rfl⟩ := Option.map_eq_some_iff.mp hq
  exact h.disjoint_pointer_pointer hi hj hij

theorem unchanged (i : ℕ) (hfree : ∀ p ∈ patches, ¬ p.toPatch.Owns i) :
    (table.target output live bound)[i]? = output[i]? :=
  (h.getElem?_free i hfree).symm

end Rewriting

end EhFrameHdrTable

/-! ## The loop over the changes -/

/-- What is known of the entries after some of the changes. -/
structure Tracks (file : ParsedOutput) (old : List EhFrameHdrEntry) (changes : List EhFrameHdrChange)
    (state : EhFrameHdrState) : Prop where
  length : state.entries.length = old.length
  values : ∀ (i : ℕ) (entry before : EhFrameHdrEntry), state.entries[i]? = some entry → old[i]? = some before →
    entry.values = adjustedValues file before changes
  changed_lt : ∀ i ∈ state.changedIndices, i < old.length
  unchanged : ∀ i, i ∉ state.changedIndices → state.entries[i]? = old[i]?
  removed_lt : ∀ i ∈ state.removedIndices, i < old.length
  removed : ∀ (i : ℕ) (before : EhFrameHdrEntry), old[i]? = some before →
    (i ∈ state.removedIndices ↔ changes.any (EhFrameHdrChange.removes file before) = true)
  added : state.addedEntries = changes.filterMap EhFrameHdrChange.added

/-- The search finds the only entry of an FDE. -/
def FindsEntries (file : ParsedOutput)
    (indexFor : List EhFrameHdrEntry → UInt64 → Except String Nat) : Prop :=
  ∀ entries fdeOutputOffset index, indexFor entries fdeOutputOffset = .ok index →
    index < entries.length ∧ ∀ i (entry : EhFrameHdrEntry), entries[i]? = some entry →
      (frameInfoPtrFor file fdeOutputOffset = some entry.frameInfoPtr.toInt ↔ i = index)

variable {file : ParsedOutput}

theorem findsEntries {hdr frame : ParsedSection} {offset size : UInt64}
    (hhdr : file.sectionByName ".eh_frame_hdr" = some hdr)
    (hframe : file.sectionByName ".eh_frame" = some frame)
    (hrange : frame.fileRange = some (offset, size)) :
    FindsEntries file fun entries fdeOutputOffset =>
      ehFrameHdrIndexForFde entries offset size frame.address hdr.address fdeOutputOffset := by
  intro entries fde index h
  dsimp only at h
  unfold ehFrameHdrIndexForFde at h
  split at h
  · cases h
  next hinside =>
  dsimp only at h
  split at h
  · cases h
  split at h
  · cases h
  have hptr : frameInfoPtrFor file fde =
      some (((frame.address.toNat + (fde.toNat - offset.toNat) : ℕ) : ℤ) - hdr.address.toNat) := by
    unfold frameInfoPtrFor
    rw [hhdr, Option.bind_eq_bind, Option.bind_some, hframe, Option.bind_eq_bind, Option.bind_some,
      hrange]
    refine congrArg some ?_
    omega
  split at h
  · cases h
  · next found hfound =>
    obtain rfl := Except.ok.inj h
    have hmem : ∀ i, (∃ entry : EhFrameHdrEntry, entries[i]? = some entry ∧
        frameInfoPtrFor file fde = some entry.frameInfoPtr.toInt) ↔ i = found := by
      intro i
      rw [← mem_singleton, ← hfound, List.mem_filterMap]
      constructor
      · rintro ⟨entry, hentry, hsome⟩
        refine ⟨(entry, i), List.mem_zipIdx_iff_getElem?.mpr hentry, ?_⟩
        exact if_pos (Option.some.inj (hptr.symm.trans hsome)).symm
      · rintro ⟨⟨entry, j⟩, hentry, hsome⟩
        dsimp only at hsome
        split at hsome
        · next heq =>
          obtain rfl := Option.some.inj hsome
          exact ⟨entry, List.mem_zipIdx_iff_getElem?.mp hentry, hptr.trans (congrArg some heq.symm)⟩
        · cases hsome
    obtain ⟨entry, hentry, -⟩ := (hmem found).mpr rfl
    refine ⟨(List.getElem?_eq_some_iff.mp hentry).1, fun i entry hi => ?_⟩
    constructor
    · intro hsome
      exact (hmem i).mp ⟨entry, hi, hsome⟩
    · rintro rfl
      obtain ⟨entry', hentry', hsome⟩ := (hmem i).mpr rfl
      obtain rfl := Option.some.inj (hi.symm.trans hentry')
      exact hsome
  · cases h

section

variable {file : ParsedOutput} {old : List EhFrameHdrEntry} {changes : List EhFrameHdrChange}
  {change : EhFrameHdrChange} {state next : EhFrameHdrState}
  {indexFor : List EhFrameHdrEntry → UInt64 → Except String Nat}

theorem adjustedValues_append (entry : EhFrameHdrEntry) :
    adjustedValues file entry (changes ++ [change]) =
      ((adjustedValues file entry changes).1 + change.delta file entry, entry.frameInfoPtr.toInt) := by
  rw [adjustedValues, adjustedValues, map_append, List.sum_append, List.map_singleton,
    List.sum_singleton, Int.add_assoc]

theorem any_removes_append (entry : EhFrameHdrEntry) :
    (changes ++ [change]).any (removes file entry) = true ↔
      changes.any (removes file entry) = true ∨ change.removes file entry = true := by
  rw [List.any_append, Bool.or_eq_true, List.any_cons, List.any_nil, Bool.or_false]

theorem Tracks.empty (old : List EhFrameHdrEntry) : Tracks file old [] ⟨old, [], [], []⟩ where
  length := rfl
  values i entry before hentry hbefore := by
    cases hentry.symm.trans hbefore
    show _ = (entry.framePtr.toInt + 0, _)
    rw [Int.add_zero]
    rfl
  changed_lt i hi := absurd hi not_mem_nil
  unchanged i _ := rfl
  removed_lt i hi := absurd hi not_mem_nil
  removed i before _ := iff_of_false not_mem_nil Bool.false_ne_true
  added := rfl

theorem Tracks.frameInfoPtr (h : Tracks file old changes state) {i : ℕ} {entry before : EhFrameHdrEntry}
    (hentry : state.entries[i]? = some entry) (hbefore : old[i]? = some before) :
    entry.frameInfoPtr = before.frameInfoPtr :=
  Int32.toInt_inj.mp (congrArg Prod.snd (h.values i entry before hentry hbefore))

theorem Tracks.apply (hfinds : FindsEntries file indexFor) (h : Tracks file old changes state)
    (hstep : state.apply indexFor change = .ok next) : Tracks file old (changes ++ [change]) next := by
  cases change with
  | adjust fde delta =>
    obtain ⟨index, hindex, hstep⟩ := bind_eq_ok.mp hstep
    obtain ⟨entry, hentry, hstep⟩ := bind_eq_ok.mp hstep
    rw [orError_eq_ok] at hentry
    dsimp only at hstep
    split at hstep
    · cases hstep
    next hfits =>
    cases hstep
    obtain ⟨hlt, hfound⟩ := hfinds _ _ _ hindex
    obtain ⟨hlow, hhigh⟩ := not_not.mp hfits
    have hnew : (Int32.ofInt (entry.framePtr.toInt + delta.toInt)).toInt =
        entry.framePtr.toInt + delta.toInt := Int32.toInt_ofInt_of_le hlow hhigh
    refine ⟨?_, ?_, ?_, ?_, h.removed_lt, ?_, ?_⟩
    · rw [List.length_set]
      exact h.length
    · intro i entry' before hentry' hbefore
      rw [adjustedValues_append]
      rw [List.getElem?_set] at hentry'
      by_cases hi : index = i
      · subst hi
        rw [if_pos rfl, if_pos hlt] at hentry'
        cases hentry'
        have hnames := (hfound index entry hentry).mpr rfl
        rw [h.frameInfoPtr hentry hbefore] at hnames
        have hdelta : (adjust fde delta).delta file before = delta.toInt :=
          if_pos hnames
        have hvalues := h.values index entry before hentry hbefore
        rw [hdelta, ← hvalues, ← h.frameInfoPtr hentry hbefore]
        show ((Int32.ofInt (entry.framePtr.toInt + delta.toInt)).toInt, _) = _
        rw [hnew]
        rfl
      · rw [if_neg hi] at hentry'
        have hnames : ¬ frameInfoPtrFor file fde = some entry'.frameInfoPtr.toInt :=
          fun hsome => hi ((hfound i entry' hentry').mp hsome).symm
        rw [h.frameInfoPtr hentry' hbefore] at hnames
        have hdelta : (adjust fde delta).delta file before = 0 := if_neg hnames
        rw [hdelta, Int.add_zero]
        exact h.values i entry' before hentry' hbefore
    · intro i hi
      rcases mem_append.mp hi with hi | hi
      · exact h.changed_lt i hi
      · rw [mem_singleton.mp hi, ← h.length]
        exact hlt
    · intro i hi
      rw [mem_append, not_or, mem_singleton] at hi
      rw [List.getElem?_set, if_neg (Ne.symm hi.2)]
      exact h.unchanged i hi.1
    · intro i before hbefore
      rw [any_removes_append]
      exact (h.removed i before hbefore).trans (or_iff_left Bool.false_ne_true).symm
    · rw [List.filterMap_append]
      exact h.added.trans (append_nil _).symm
  | remove fde =>
    obtain ⟨index, hindex, hstep⟩ := bind_eq_ok.mp hstep
    cases hstep
    obtain ⟨hlt, hfound⟩ := hfinds _ _ _ hindex
    refine ⟨h.length, ?_, h.changed_lt, h.unchanged, ?_, ?_, ?_⟩
    · intro i entry before hentry hbefore
      rw [adjustedValues_append]
      show _ = (_ + 0, _)
      rw [Int.add_zero]
      exact h.values i entry before hentry hbefore
    · intro i hi
      rcases mem_append.mp hi with hi | hi
      · exact h.removed_lt i hi
      · rw [mem_singleton.mp hi, ← h.length]
        exact hlt
    · intro i before hbefore
      rw [any_removes_append, mem_append, mem_singleton, h.removed i before hbefore]
      have hi : i < state.entries.length := h.length ▸ (List.getElem?_eq_some_iff.mp hbefore).1
      have hentry : state.entries[i]? = some state.entries[i] := getElem?_eq_getElem hi
      rw [← hfound i _ hentry, h.frameInfoPtr hentry hbefore]
      exact or_congr_right decide_eq_true_iff.symm
    · rw [List.filterMap_append]
      exact h.added.trans (append_nil _).symm
  | add entry =>
    cases hstep
    refine ⟨h.length, ?_, h.changed_lt, h.unchanged, h.removed_lt, ?_, ?_⟩
    · intro i entry before hentry hbefore
      rw [adjustedValues_append]
      show _ = (_ + 0, _)
      rw [Int.add_zero]
      exact h.values i entry before hentry hbefore
    · intro i before hbefore
      rw [any_removes_append]
      exact (h.removed i before hbefore).trans (or_iff_left Bool.false_ne_true).symm
    · rw [List.filterMap_append]
      exact congrArg (· ++ [entry]) h.added

theorem Tracks.foldlM (hfinds : FindsEntries file indexFor) {rest : List EhFrameHdrChange}
    (h : Tracks file old changes state)
    (hrun : rest.foldlM (EhFrameHdrState.apply indexFor) state = .ok next) :
    Tracks file old (changes ++ rest) next := by
  induction rest generalizing changes state with
  | nil =>
    cases hrun
    rw [append_nil]
    exact h
  | cons change rest ih =>
    obtain ⟨between, hstep, hrun⟩ := bind_eq_ok.mp hrun
    rw [List.append_cons]
    exact ih (h.apply hfinds hstep) hrun

end

/-! ## The three ways to write the result -/

theorem mem_pointerPatches {table : EhFrameHdrTable}
    {indices : List ℕ} {p : SectionPatch} : p ∈ table.pointerPatches entries indices ↔
      ∃ i ∈ indices, ∃ entry, entries[i]? = some entry ∧ p = table.pointerPatch i entry := by
  rw [EhFrameHdrTable.pointerPatches, List.mem_filterMap]
  refine exists_congr fun i => and_congr_right fun _ => ?_
  rw [Option.map_eq_some_iff]
  exact exists_congr fun entry => and_congr_right fun _ => eq_comm

theorem map_filter_eq {α β γ : Type} {p : α → Bool} {q : β → Bool} {f : α → γ} {g : β → γ}
    {l : List α} {m : List β} (h : List.Forall₂ (fun a b => p a = q b ∧ f a = g b) l m) :
    (l.filter p).map f = (m.filter q).map g := by
  induction h with
  | nil => rfl
  | @cons a b l m hab _ ih =>
    cases hp : p a with
    | true =>
      rw [List.filter_cons_of_pos hp, List.filter_cons_of_pos (hab.1 ▸ hp), map_cons,
        map_cons, hab.2, ih]
    | false =>
      have hq : ¬ q b = true := by rw [← hab.1, hp]; exact Bool.false_ne_true
      have hp' : ¬ p a = true := by rw [hp]; exact Bool.false_ne_true
      rw [List.filter_cons_of_neg hp', List.filter_cons_of_neg hq, ih]

theorem removes_congr {entry other : EhFrameHdrEntry}
    (h : entry.frameInfoPtr = other.frameInfoPtr) :
    removes file entry = removes file other := by
  funext change
  cases change with
  | remove fde => rw [removes, removes, h]
  | adjust fde delta => rfl
  | add entry => rfl

namespace Tracks

variable {file : ParsedOutput} {table : EhFrameHdrTable} {output : List UInt8}
  {changes : List EhFrameHdrChange} {state : EhFrameHdrState} {patches : List SectionPatch}

/-- What is left when the removed entries are erased. -/
def kept (state : EhFrameHdrState) : List EhFrameHdrEntry :=
  eraseAll (sortDedup state.removedIndices) state.entries

variable {old : List EhFrameHdrEntry} (h : Tracks file old changes state)

include h

theorem kept_eq : kept state =
    state.entries.filter fun entry => !changes.any (removes file entry) := by
  refine Store.eraseAll_eq_filter (sortDedup_pairwise _) fun i entry hentry => ?_
  have hi : i < old.length := h.length ▸ (List.getElem?_eq_some_iff.mp hentry).1
  have hbefore : old[i]? = some old[i] := getElem?_eq_getElem hi
  rw [mem_sortDedup, h.removed i _ hbefore, removes_congr (h.frameInfoPtr hentry hbefore)]

theorem map_values_kept : (kept state).map EhFrameHdrEntry.values =
    (old.filter fun entry => !changes.any (removes file entry)).map
      fun entry => adjustedValues file entry changes := by
  rw [h.kept_eq]
  refine map_filter_eq (List.forall₂_iff_get.mpr ⟨h.length, fun i hi hi' => ?_⟩)
  have hentry : state.entries[i]? = some state.entries[i] := getElem?_eq_getElem hi
  have hbefore : old[i]? = some old[i] := getElem?_eq_getElem hi'
  refine ⟨?_, h.values i _ _ hentry hbefore⟩
  exact congrArg (!·) (congrArg changes.any (removes_congr (h.frameInfoPtr hentry hbefore)))

theorem length_kept_le : (kept state).length ≤ old.length := by
  rw [h.kept_eq, ← h.length]
  exact List.length_filter_le _ _

theorem pointers {live : List EhFrameHdrEntry} {first : ℕ} {indices : List ℕ}
    (hlive : ∀ i < first, live[i]? = state.entries[i]?)
    (hidxs : ∀ i < first, i ∈ state.changedIndices → i ∈ indices)
    (hpatches : ∀ p ∈ table.pointerPatches live indices, p ∈ patches) (i : ℕ) (hi : i < first)
    (entry before : EhFrameHdrEntry) (hentry : live[i]? = some entry) (hbefore : old[i]? = some before) :
    entry.frameInfoPtr = before.frameInfoPtr ∧
      (entry.framePtr = before.framePtr ∨ table.pointerPatch i entry ∈ patches) := by
  have hstate : state.entries[i]? = some entry := (hlive i hi).symm.trans hentry
  refine ⟨h.frameInfoPtr hstate hbefore, ?_⟩
  by_cases hchanged : i ∈ state.changedIndices
  · exact .inr (hpatches _ (mem_pointerPatches.mpr ⟨i, hidxs i hi hchanged, entry, hentry, rfl⟩))
  · have hsame := (hstate.symm.trans (h.unchanged i hchanged)).trans hbefore
    rw [Option.some.inj hsame]
    exact .inl rfl

end Tracks

/-- What the patches of a table establish. -/
def LeadsTo (table : EhFrameHdrTable) (output : List UInt8) (values : List (ℤ × ℤ))
    (patches : List SectionPatch) : Prop :=
  ∃ live first bound, table.Rewriting output live first bound patches ∧
    (live.map EhFrameHdrEntry.values).Perm values ∧
    (live.Pairwise fun a b => a.framePtr.toInt ≤ b.framePtr.toInt) ∧
    (patches.map SectionPatch.toPatch).Pairwise Patch.Disjoint

section

variable {file : ParsedOutput} {table : EhFrameHdrTable} {output : List UInt8}
  {changes : List EhFrameHdrChange} {state : EhFrameHdrState} {patches : List SectionPatch}

theorem length_lt_of_holds (h : table.Holds output) : table.entries.length < 2 ^ 32 := by
  rw [← h.count]
  refine (ofLeBytes_lt _).trans_le ?_
  exact Nat.pow_le_pow_right (by omega) Store.length_window_le

theorem leadsTo_adjusted (htable : table.Holds output) (h : Tracks file table.entries changes state)
    (hsorted : sortedByFramePtr state.entries = true) (hadded : state.addedEntries = [])
    (hremoved : sortDedup state.removedIndices = []) :
    LeadsTo table output (liveEntries file table.entries changes)
      (table.pointerPatches state.entries (sortDedup state.changedIndices)) := by
  have hkept : Tracks.kept state = state.entries := by
    rw [Tracks.kept, hremoved]
    rfl
  have hrewriting : table.Rewriting output state.entries table.entries.length table.entries.length
      (table.pointerPatches state.entries (sortDedup state.changedIndices)) := by
    refine ⟨htable, Nat.le_of_eq h.length.symm, Nat.le_of_eq h.length, htable.fits, Nat.le_refl _,
      h.length ▸ length_lt_of_holds htable, ?_, .inr h.length, .inr rfl, ?_⟩
    · intro p hp
      obtain ⟨i, hi, entry, hentry, rfl⟩ := mem_pointerPatches.mp hp
      exact .inr (.inr ⟨i, h.changed_lt i (mem_sortDedup.mp hi), entry, hentry, rfl⟩)
    · exact h.pointers (fun i _ => rfl) (fun i _ hi => mem_sortDedup.mpr hi) fun p hp => hp
  refine ⟨_, _, _, hrewriting, ?_, sortedByFramePtr_iff.mp hsorted, ?_⟩
  · rw [liveEntries, ← h.map_values_kept, hkept, ← h.added, hadded, map_nil, append_nil]
  · exact hrewriting.disjoint_pointerPatches (fun i hi => h.changed_lt i (mem_sortDedup.mp hi))
      (sortDedup_pairwise _)

theorem leadsTo_removed (htable : table.Holds output) (h : Tracks file table.entries changes state)
    (hadded : state.addedEntries = []) {firstRemoved : ℕ} {rest : List ℕ}
    (hremoved : sortDedup state.removedIndices = firstRemoved :: rest)
    (hsorted : sortedByFramePtr (Tracks.kept state) = true)
    (hcount : (Tracks.kept state).length < 2 ^ 32) :
    LeadsTo table output (liveEntries file table.entries changes)
      (table.pointerPatches (Tracks.kept state)
          ((sortDedup state.changedIndices).filter (· < firstRemoved)) ++
        [table.countPatch (Tracks.kept state).length,
          table.entriesPatch firstRemoved state.entries.length
            ((Tracks.kept state).drop firstRemoved)]) := by
  have hsame : ∀ i < firstRemoved, (Tracks.kept state)[i]? = state.entries[i]? := by
    intro i hi
    have hpairs := sortDedup_pairwise state.removedIndices
    rw [hremoved] at hpairs
    refine Store.getElem?_eraseAll ?_
    rw [hremoved]
    exact List.forall_mem_cons.mpr ⟨hi, fun r hr => hi.trans ((pairwise_cons.mp hpairs).1 r hr)⟩
  have hfirst : firstRemoved < table.entries.length := by
    refine h.removed_lt _ (mem_sortDedup.mp ?_)
    rw [hremoved]
    exact mem_cons_self
  have hfirst_le : firstRemoved ≤ (Tracks.kept state).length := by
    refine Nat.not_lt.mp fun hlt => ?_
    have hnone := hsame _ hlt
    rw [List.getElem?_eq_none (Nat.le_refl _), getElem?_eq_getElem] at hnone
    · cases hnone
    · rw [h.length]
      exact hlt.trans hfirst
  have hlen := h.length
  rw [hlen]
  have hrewriting : table.Rewriting output (Tracks.kept state) firstRemoved table.entries.length
      (table.pointerPatches (Tracks.kept state)
          ((sortDedup state.changedIndices).filter (· < firstRemoved)) ++
        [table.countPatch (Tracks.kept state).length,
          table.entriesPatch firstRemoved table.entries.length
            ((Tracks.kept state).drop firstRemoved)]) := by
    refine ⟨htable, hfirst_le, h.length_kept_le, htable.fits, hfirst.le, hcount, ?_,
      .inl (List.mem_append_right _ mem_cons_self),
      .inl (List.mem_append_right _ (List.mem_cons_of_mem _ mem_cons_self)), ?_⟩
    · intro p hp
      rcases mem_append.mp hp with hp | hp
      · obtain ⟨i, hi, entry, hentry, rfl⟩ := mem_pointerPatches.mp hp
        exact .inr (.inr ⟨i, of_decide_eq_true (mem_filter.mp hi).2, entry, hentry, rfl⟩)
      · rcases mem_cons.mp hp with rfl | hp
        · exact .inl rfl
        · exact .inr (.inl (mem_singleton.mp hp))
    · refine h.pointers hsame ?_ fun p hp => List.mem_append_left _ hp
      intro i hi hchanged
      exact mem_filter.mpr ⟨mem_sortDedup.mpr hchanged, decide_eq_true hi⟩
  refine ⟨_, _, _, hrewriting, ?_, sortedByFramePtr_iff.mp hsorted, ?_⟩
  · rw [liveEntries, ← h.map_values_kept, ← h.added, hadded, map_nil, append_nil]
  · rw [map_append, List.pairwise_append]
    refine ⟨?_, ?_, ?_⟩
    · refine hrewriting.disjoint_pointerPatches ?_ ((sortDedup_pairwise _).filter _)
      intro i hi
      exact of_decide_eq_true (mem_filter.mp hi).2
    · exact List.pairwise_pair.mpr hrewriting.disjoint_count_entries
    · intro p hp q hq
      obtain ⟨pointer, hpointer, rfl⟩ := mem_map.mp hp
      obtain ⟨i, hi, entry, -, rfl⟩ := mem_pointerPatches.mp hpointer
      have hlt : i < firstRemoved := of_decide_eq_true (mem_filter.mp hi).2
      rcases mem_cons.mp hq with rfl | hq
      · exact hrewriting.disjoint_pointer_count hlt
      · rw [mem_singleton.mp hq]
        exact hrewriting.disjoint_pointer_entries hlt

theorem leadsTo_added (htable : table.Holds output) (h : Tracks file table.entries changes state)
    {entries : List EhFrameHdrEntry} (hperm : entries.Perm (Tracks.kept state ++ state.addedEntries))
    (hsorted : sortedByFramePtr entries = true) (hcapacity : entries.length ≤ table.capacity)
    (hcount : entries.length < 2 ^ 32) :
    LeadsTo table output (liveEntries file table.entries changes)
      [table.countPatch entries.length, table.entriesPatch 0 table.capacity entries] := by
  have hrewriting : table.Rewriting output entries 0 table.capacity
      [table.countPatch entries.length, table.entriesPatch 0 table.capacity entries] := by
    refine ⟨htable, Nat.zero_le _, hcapacity, Nat.le_refl _, Nat.zero_le _, hcount, ?_,
      .inl mem_cons_self, .inl (List.mem_cons_of_mem _ mem_cons_self),
      fun i hi => absurd hi (Nat.not_lt_zero i)⟩
    intro p hp
    rcases mem_cons.mp hp with rfl | hp
    · exact .inl rfl
    · exact .inr (.inl (mem_singleton.mp hp))
  refine ⟨_, _, _, hrewriting, ?_, sortedByFramePtr_iff.mp hsorted, ?_⟩
  · rw [liveEntries, ← h.map_values_kept, ← h.added, ← map_append]
    exact hperm.map _
  · exact List.pairwise_pair.mpr hrewriting.disjoint_count_entries

theorem leadsTo_of_patches (htable : table.Holds output) (h : Tracks file table.entries changes state)
    (hpatches : table.patches state = .ok patches) :
    LeadsTo table output (liveEntries file table.entries changes) patches := by
  unfold EhFrameHdrTable.patches at hpatches
  split at hpatches
  · cases hpatches
  next hsorted =>
  dsimp only at hpatches
  split at hpatches
  · next first added hadded =>
    split at hpatches
    · cases hpatches
    next hcapacity =>
    split at hpatches
    · cases hpatches
    next hsorted' =>
    split at hpatches
    · cases hpatches
    next hcount =>
      cases hpatches
      have hperm := List.perm_insertionSort
        (fun a b : EhFrameHdrEntry => a.framePtr.toInt ≤ b.framePtr.toInt)
        (Tracks.kept state ++ first :: added)
      refine leadsTo_added htable h (hadded ▸ hperm) (not_not.mp hsorted') ?_ (Nat.not_le.mp hcount)
      refine hperm.length_eq.trans_le ?_
      rw [length_append]
      exact Nat.not_lt.mp hcapacity
  · next hadded hremoved =>
    cases hpatches
    exact leadsTo_adjusted htable h (not_not.mp hsorted) hadded hremoved
  · next firstRemoved rest hadded hremoved =>
    split at hpatches
    · cases hpatches
    next hsorted' =>
    split at hpatches
    · cases hpatches
    next hcount =>
      cases hpatches
      exact leadsTo_removed htable h hadded hremoved (not_not.mp hsorted') (Nat.not_le.mp hcount)

end

/-! ## The patched table -/

/-- A table as a link writes it: sorted, with one entry for an FDE. -/
structure EhFrameHdrWellFormed (hdr : ParsedSection) (output : List UInt8) (table : EhFrameHdrTable) :
    Prop where
  read : ehFrameHdrTable hdr output = .ok table
  sorted : table.entries.Pairwise fun a b => a.framePtr.toInt ≤ b.framePtr.toInt
  distinct : (table.entries.map EhFrameHdrEntry.frameInfoPtr).Nodup

section

variable {parse : List UInt8 → Except String ParsedOutput} {output : List UInt8} {file : ParsedOutput}
  {hdr : ParsedSection} {table : EhFrameHdrTable} {changes : List EhFrameHdrChange}
  {patches : List SectionPatch}

theorem leadsTo_of_accepted (hparse : parse output = .ok file)
    (hhdr : file.sectionByName ".eh_frame_hdr" = some hdr)
    (htable : EhFrameHdrWellFormed hdr output table)
    (h : ehFrameHdrPatchesForFdeChanges parse output changes = .ok (.ok patches)) :
    LeadsTo table output (liveEntries file table.entries changes) patches := by
  obtain ⟨offset, size, -, -, -, hholds⟩ := EhFrameHdrTable.ehFrameHdrTable_eq_ok.mp htable.read
  cases changes with
  | nil =>
    -- nothing is written, and the table is what it was
    cases Except.ok.inj h
    exact leadsTo_adjusted hholds (Tracks.empty table.entries)
      (sortedByFramePtr_iff.mpr htable.sorted) rfl rfl
  | cons change changes =>
    unfold ehFrameHdrPatchesForFdeChanges at h
    rw [hparse] at h
    have hacc := Except.ok.inj h
    unfold ehFrameHdrPatches at hacc
    rw [hhdr] at hacc
    obtain ⟨frame, hframe, hacc⟩ := bind_eq_ok.mp hacc
    obtain ⟨⟨frameOffset, frameSize⟩, hrange, hacc⟩ := bind_eq_ok.mp hacc
    obtain ⟨table', hread, hacc⟩ := bind_eq_ok.mp hacc
    obtain ⟨state, hrun, hpatches⟩ := bind_eq_ok.mp hacc
    cases htable.read.symm.trans hread
    rw [orError_eq_ok] at hframe hrange
    exact leadsTo_of_patches hholds
      ((Tracks.empty table.entries).foldlM (findsEntries hhdr hframe hrange) hrun) hpatches

/-- **The patched table holds the live entries**: the old ones without the removed
ones, adjusted, and the added ones, sorted and counted.  The patches are
disjoint and stay in the section, slots past the count that they rewrite
are cleared, and nothing else changes. -/
theorem patched_table_is_live (hparse : parse output = .ok file)
    (hhdr : file.sectionByName ".eh_frame_hdr" = some hdr)
    (htable : EhFrameHdrWellFormed hdr output table)
    (h : ehFrameHdrPatchesForFdeChanges parse output changes = .ok (.ok patches)) :
    ∃ patched live, applyPatches patches output = .ok patched ∧
      patched.length = output.length ∧
      ehFrameHdrTable hdr patched = .ok { table with entries := live } ∧
      ehFrameHdrEntryCount patched table.start =
        (liveEntries file table.entries changes).length ∧
      (live.map EhFrameHdrEntry.values).Perm (liveEntries file table.entries changes) ∧
      (live.Pairwise fun a b => a.framePtr.toInt ≤ b.framePtr.toInt) ∧
      (patches.map SectionPatch.toPatch).Pairwise Patch.Disjoint ∧
      (∀ p ∈ patches, ∀ i, p.Covers i → ∃ offset size, hdr.fileRange = some (offset, size) ∧
        offset.toNat ≤ i ∧ i < offset.toNat + size.toNat) ∧
      (∀ p ∈ patches, ∀ i, p.Covers i → table.entryOffset live.length ≤ i →
        patched[i]? = some 0) ∧
      ∀ i, (∀ p ∈ patches, ¬ p.Covers i) → patched[i]? = output[i]? := by
  obtain ⟨live, first, bound, hrewriting, hperm, hsorted, hdisj⟩ :=
    leadsTo_of_accepted hparse hhdr htable h
  obtain ⟨offset, size, hrange, hstart, hstop, -⟩ :=
    EhFrameHdrTable.ehFrameHdrTable_eq_ok.mp htable.read
  have hholds := hrewriting.holds_target
  refine ⟨_, live, hrewriting.applyPatches_eq, hrewriting.length_target, ?_, ?_, hperm, hsorted,
    hdisj, ?_, ?_, ?_⟩
  · exact EhFrameHdrTable.ehFrameHdrTable_eq_ok.mpr ⟨offset, size, hrange, hstart, hstop, hholds⟩
  · rw [← hperm.length_eq, List.length_map]
    exact hholds.count
  · intro p hp i hi
    have hinside := hrewriting.inside p hp i hi
    exact ⟨offset, size, hrange, by omega, by omega⟩
  · intro p hp i hi hpast
    exact hrewriting.cleared p hp i hi hpast
  · intro i hfree
    exact hrewriting.unchanged i hfree

end

/-! ### A table with a free slot -/

/-- The sections of a 64-bit file, as its headers have them. -/
def elfSections (bytes : List UInt8) : Except String ParsedOutput :=
  Text.Reader.orError "Could not read file header" do
    let headers ← Elf.readLe bytes 40 8
    let count ← Elf.readLe bytes 60 2
    let names ← Elf.readLe bytes 62 2
    let strings ← Elf.readLe bytes (headers + 64 * names + 24) 8
    (List.range count).mapM fun index => do
      let start := headers + 64 * index
      let name ← Elf.readLe bytes start 4
      let address ← Elf.readLe bytes (start + 16) 8
      let offset ← Elf.readLe bytes (start + 24) 8
      let size ← Elf.readLe bytes (start + 32) 8
      let string := (bytes.drop (strings + name)).takeWhile (· ≠ 0)
      return ⟨string.map fun b => Char.ofNat b.toNat, .ofNat address,
        if index = 0 then none else some (.ofNat offset, .ofNat size)⟩

def sectionHeaderBytes (name shType address offset size : ℕ) : List UInt8 :=
  leBytes name 4 ++ leBytes shType 4 ++ leBytes 2 8 ++ leBytes address 8 ++ leBytes offset 8 ++
    leBytes size 8 ++ leBytes 0 8 ++ leBytes 4 8 ++ leBytes 0 8

/-- A shared object with `.text`, `.eh_frame_hdr` and `.eh_frame`. -/
def frameFile (text hdr frame : List UInt8) : List UInt8 :=
  let names := [0] ++ [".text", ".eh_frame_hdr", ".eh_frame", ".shstrtab"].flatMap fun name =>
    name.toList.map (fun c => .ofNat c.toNat) ++ [0]
  let hdrOffset := 64 + text.length
  let frameOffset := hdrOffset + hdr.length
  let namesOffset := frameOffset + frame.length
  [0x7f, 0x45, 0x4c, 0x46, 2, 1, 1] ++ List.replicate 9 0 ++ leBytes 3 2 ++ leBytes 62 2 ++
    leBytes 1 4 ++ leBytes 0 16 ++ leBytes (namesOffset + names.length) 8 ++ leBytes 0 4 ++
    leBytes 64 2 ++ leBytes 0 4 ++ leBytes 64 2 ++ leBytes 5 2 ++ leBytes 4 2 ++
    text ++ hdr ++ frame ++ names ++ List.replicate 64 0 ++
    sectionHeaderBytes 1 1 4096 64 text.length ++ sectionHeaderBytes 7 1 4352 hdrOffset hdr.length ++
    sectionHeaderBytes 21 1 8192 frameOffset frame.length ++
    sectionHeaderBytes 31 3 0 namesOffset names.length

/-- The common part of frame descriptions, and one with its two pointers. -/
def commonFrame : List UInt8 := [4, 0, 0, 0, 0, 0, 0, 0]
def frameEntry (ciePointer : ℕ) (pcBegin : Int32) : List UInt8 :=
  leBytes 12 4 ++ leBytes ciePointer 4 ++ i32LeBytes pcBegin ++ leBytes 4 4

/-- Two functions, and room for a third. -/
def twoEntries : List EhFrameHdrEntry := [⟨-256, 3848⟩, ⟨-252, 3864⟩]

def hdrOutput : List UInt8 :=
  frameFile (List.replicate 16 0x90) ([1, 27, 3, 59, 0, 15, 0, 0] ++ leBytes 2 4 ++
      twoEntries.flatMap EhFrameHdrEntry.bytes ++ List.replicate 8 0)
    (commonFrame ++ frameEntry 12 (-4112) ++ frameEntry 28 (-4124) ++ List.replicate 40 0)

def hdrSection : ParsedSection := ⟨".eh_frame_hdr".toList, 4352, some (80, 36)⟩
def frameSection : ParsedSection := ⟨".eh_frame".toList, 8192, some (116, 80)⟩

def hdrFile : ParsedOutput :=
  [⟨[], 0, none⟩, ⟨".text".toList, 4096, some (64, 16)⟩, hdrSection, frameSection,
    ⟨".shstrtab".toList, 0, some (196, 41)⟩]

/-- The first function is gone, the second has moved, and there is a new one. -/
def threeChanges : List EhFrameHdrChange :=
  [.adjust 140 8, .remove ⟨[], [], 1, 2, 0, 124, 16⟩, .add ⟨-252, 3880⟩]

set_option maxRecDepth 8000 in
theorem three_changes :
    ∃ patched live, applyPatches [.plain 88 (leBytes 2 4), .plain 92 ((tableSlots
        [⟨-252, 3880⟩, ⟨-244, 3864⟩] 3).flatMap entrySlot)] hdrOutput = .ok patched ∧
      ehFrameHdrTable hdrSection patched = .ok ⟨80, 3, live⟩ ∧
      (live.map EhFrameHdrEntry.values).Perm [(-244, 3864), (-252, 3880)] := by
  have hparse : elfSections hdrOutput = .ok hdrFile := by rfl
  have htable : EhFrameHdrWellFormed hdrSection hdrOutput ⟨80, 3, twoEntries⟩ :=
    ⟨by rfl, by decide, by decide⟩
  have hacc : ehFrameHdrPatchesForFdeChanges elfSections hdrOutput threeChanges =
      .ok (.ok [.plain 88 (leBytes 2 4), .plain 92 ((tableSlots
        [⟨-252, 3880⟩, ⟨-244, 3864⟩] 3).flatMap entrySlot)]) := by
    rfl
  obtain ⟨patched, live, happly, -, hread, -, hperm, -⟩ :=
    patched_table_is_live hparse rfl htable hacc
  exact ⟨patched, live, happly, hread, hperm⟩

end Sld.Incremental
