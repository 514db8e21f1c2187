/-
# `MachO.FixupChains` — the words of the slots, read back

The slots are sorted, so the next slot of a page is the next one of the list
if it is in the same page, and the strides lead through the slots of a page.
A stride counts units of four bytes: it can be written exactly when the
slots of a page are congruent modulo four.

    nextStride_eq_ok     what the stride of a slot is
    decode_word          what the loader reads there
-/
import Sld.MachO.ChainedFixups

namespace Sld.MachO

open ChainedRebases (pointerWord)


variable {segment : DataSegment}

/-! ## Slots -/

/-- The page of an address. -/
def pageOf (address : ℕ) : ℕ := address / machoPageSize

namespace Pointers

variable (image : Pointers segment)

theorem mem_slots {address : ℕ} :
    address ∈ image.chainedRebases.slots ↔ ∃ p ∈ image.pointers, p.address = address := by
  show address ∈ sortDedup _ ↔ _
  rw [mem_sortDedup, List.mem_map]

theorem slots_pairwise_lt : image.chainedRebases.slots.Pairwise (· < ·) := sortDedup_pairwise _

theorem slots_pairwise_page : image.chainedRebases.slots.Pairwise fun a b => pageOf a ≤ pageOf b :=
  image.slots_pairwise_lt.imp fun h => Nat.div_le_div_right (Nat.le_of_lt h)

theorem eq_of_address_eq {p q : Pointer} (hp : p ∈ image.pointers) (hq : q ∈ image.pointers)
    (h : p.address = q.address) : p = q := by
  rcases pairwise_eq_or image.disjoint hp hq with heq | hlt | hlt
  · exact heq
  · omega
  · omega

theorem slots_eq_nil : image.chainedRebases.slots = [] ↔ image.pointers = [] := by
  constructor
  · intro h
    rw [List.eq_nil_iff_forall_not_mem] at h ⊢
    intro p hp
    exact h p.address (image.mem_slots.2 ⟨p, hp, rfl⟩)
  · intro h
    rw [List.eq_nil_iff_forall_not_mem]
    intro a ha
    obtain ⟨p, hp, -⟩ := image.mem_slots.1 ha
    rw [h] at hp
    cases hp

end Pointers

/-! ## Strides -/

theorem idxOf?_append_cons {before after : List ℕ} {a : ℕ} (h : a ∉ before) :
    (before ++ a :: after).idxOf? a = some before.length := by
  induction before with
  | nil => rw [List.nil_append, List.idxOf?_cons, if_pos (beq_self_eq_true a)]; rfl
  | cons b before ih =>
    have hb : ¬(b == a) = true := by
      rw [beq_iff_eq]
      exact fun heq => h (heq ▸ List.mem_cons_self)
    rw [List.cons_append, List.idxOf?_cons, if_neg hb,
      ih fun hmem => h (List.mem_cons_of_mem _ hmem)]
    rfl

theorem page_end_le {place next : ℕ} (h : place < next) :
    next ≥ place / machoPageSize * machoPageSize + machoPageSize ↔ pageOf next ≠ pageOf place := by
  have hplace := Nat.div_add_mod place machoPageSize
  unfold pageOf machoPageSize at *
  omega

/-- The next slot of a list of slots, if it is in the page. -/
def nextInPage (place : ℕ) (after : List ℕ) : Option ℕ :=
  after.head?.filter fun next => pageOf next = pageOf place

variable {stride : ℕ}

theorem nextStride_eq_ok {rebases : ChainedRebases} {before after : List ℕ} {place : ℕ}
    (hsorted : rebases.slots.Pairwise (· < ·)) (hslots : rebases.slots = before ++ place :: after) :
    rebases.nextStride place = .ok stride ↔
      (∀ next ∈ nextInPage place after, (next - place) % 4 = 0) ∧
        stride = ((nextInPage place after).map fun next => (next - place) / 4).getD 0 := by
  rw [hslots, List.pairwise_append] at hsorted
  obtain ⟨-, hafter, hbefore⟩ := hsorted
  have hnotMem : place ∉ before := fun hmem =>
    absurd (hbefore place hmem place List.mem_cons_self) (Nat.lt_irrefl _)
  have hindex : rebases.slots.idxOf? place = some before.length := by
    rw [hslots, idxOf?_append_cons hnotMem]
  have hget : rebases.slots[before.length + 1]? = after.head? := by
    rw [hslots, List.getElem?_append_right (Nat.le_add_right _ _), Nat.add_sub_cancel_left,
      List.getElem?_cons_succ, List.head?_eq_getElem?]
  unfold ChainedRebases.nextStride nextInPage
  simp only [hindex, hget]
  cases after with
  | nil => simp [eq_comm]
  | cons next after =>
    have hlt : place < next := List.rel_of_pairwise_cons hafter List.mem_cons_self
    simp only [List.head?_cons, page_end_le hlt]
    rcases eq_or_ne (pageOf next) (pageOf place) with heq | hne
    · rw [if_neg (not_not.2 heq), Option.filter_some_pos (by simpa using heq),
        ensure_bind_eq_ok, ensure_bind_eq_ok]
      have hdistance : (next - place) / 4 < 0x1000 := by
        unfold pageOf machoPageSize at *
        omega
      constructor
      · rintro ⟨hfour, -, hok⟩
        cases hok
        exact ⟨fun b hb => by cases hb; exact hfour, rfl⟩
      · rintro ⟨hfour, rfl⟩
        exact ⟨hfour next rfl, hdistance, rfl⟩
    · rw [if_pos hne, Option.filter_some_neg (by simpa using hne)]
      simp [eq_comm]

/-! ## Words -/

/-- What a pointer refers to. -/
inductive Target where
  | rebase (value : ℕ)
  | bind (importIndex : ℕ) (addend : ℤ)

def Pointer.target : Pointer → Target
  | .rebase _ value => .rebase value
  | .bind _ index addend => .bind index addend
  | .got _ value none => .rebase value
  | .got _ _ (some index) => .bind index 0

def Target.encode : Target → ℕ → Except String ℕ
  | .rebase value, stride => encodeChainedRebase value stride
  | .bind index _, stride => encodeChainedBind index stride

/-- What the loader should do for it. -/
def Target.fixup (imports : List ChainedImport) : Target → Option Fixup
  | .rebase value => some (.rebase value)
  | .bind index addend =>
    imports[index]?.map fun chained => .bind chained.name chained.libOrdinal.toNat addend

variable {word : ℕ}

theorem encodeChainedRebase_eq_ok {value : ℕ} : encodeChainedRebase value stride = .ok word ↔
      machoStartMemAddress ≤ value ∧ value - machoStartMemAddress < 2 ^ 36 ∧ stride < 2 ^ 12 ∧
        word = 2 ^ 51 * stride + (value - machoStartMemAddress) := by
  unfold encodeChainedRebase
  rw [ensure_bind_eq_ok, ensure_bind_eq_ok, ensure_bind_eq_ok, Nat.one_shiftLeft]
  refine and_congr_right fun _ => and_congr_right fun hvalue => and_congr_right fun _ => ?_
  have hword : (value - machoStartMemAddress) ||| stride <<< 51 =
      2 ^ 51 * stride + (value - machoStartMemAddress) := by
    rw [Nat.shiftLeft_eq, Nat.mul_comm, Nat.or_comm,
      Nat.two_pow_add_eq_or_of_lt (hvalue.trans (by decide))]
  rw [hword]
  exact ⟨fun h => (Except.ok.inj h).symm, fun h => congrArg Except.ok h.symm⟩

theorem encodeChainedBind_eq_ok {index : ℕ} : encodeChainedBind index stride = .ok word ↔
      index < 2 ^ 24 ∧ stride < 2 ^ 12 ∧ word = 2 ^ 63 + (2 ^ 51 * stride + index) := by
  unfold encodeChainedBind
  rw [ensure_bind_eq_ok, ensure_bind_eq_ok, Nat.one_shiftLeft]
  refine and_congr_right fun hindex => and_congr_right fun hstride => ?_
  have hlow : index ||| stride <<< 51 = 2 ^ 51 * stride + index := by
    rw [Nat.shiftLeft_eq, Nat.mul_comm, Nat.or_comm,
      Nat.two_pow_add_eq_or_of_lt (hindex.trans (by decide))]
  have hword : index ||| stride <<< 51 ||| 1 <<< 63 = 2 ^ 63 + (2 ^ 51 * stride + index) := by
    rw [hlow, Nat.or_comm]
    have hlt : 2 ^ 51 * stride + index < 2 ^ 63 := by omega
    simpa using (Nat.two_pow_add_eq_or_of_lt hlt 1).symm
  rw [hword]
  exact ⟨fun h => (Except.ok.inj h).symm, fun h => congrArg Except.ok h.symm⟩

namespace Pointers

variable (image : Pointers segment)

variable {p : Pointer}

theorem bindImportIndex_eq (hp : p ∈ image.pointers) :
    image.chainedRebases.bindImportIndex p.address =
      p.bindSlot?.map ChainedBindSlot.importIndex := by
  have hmem : ∀ {slot : ChainedBindSlot}, slot ∈ image.chainedRebases.bindSlots ↔
      ∃ q ∈ image.pointers, q.bindSlot? = some slot := by
    intro slot
    show slot ∈ List.insertionSort _ _ ↔ _
    rw [List.mem_insertionSort, List.mem_filterMap]
  have haddr : ∀ {q : Pointer} {slot : ChainedBindSlot}, q.bindSlot? = some slot →
      slot.address = q.address := by
    intro q slot hslot
    cases q with
    | rebase _ _ => cases hslot
    | bind _ _ _ => cases hslot; rfl
    | got _ _ _ => cases hslot
  unfold ChainedRebases.bindImportIndex
  congr 1
  cases hslot : p.bindSlot? with
  | none =>
    rw [List.find?_eq_none]
    intro slot hslotMem heq
    obtain ⟨q, hq, hqslot⟩ := hmem.1 hslotMem
    have hpq : q = p :=
      image.eq_of_address_eq hq hp ((haddr hqslot).symm.trans (of_decide_eq_true heq))
    rw [hpq, hslot] at hqslot
    cases hqslot
  | some slot =>
    cases hfound : image.chainedRebases.bindSlots.find? fun s => s.address = p.address with
    | none =>
      rw [List.find?_eq_none] at hfound
      exact absurd (decide_eq_true (haddr hslot)) (hfound slot (hmem.2 ⟨p, hp, hslot⟩))
    | some other =>
      obtain ⟨q, hq, hqslot⟩ := hmem.1 (List.mem_of_find?_eq_some hfound)
      have hother := List.find?_some hfound
      have hpq : q = p :=
        image.eq_of_address_eq hq hp ((haddr hqslot).symm.trans (of_decide_eq_true hother))
      rw [hpq, hslot] at hqslot
      exact hqslot.symm

theorem word_eq (hp : p ∈ image.pointers) : image.chainedRebases.word p =
      image.chainedRebases.nextStride p.address >>= p.target.encode := by
  have hbind := image.bindImportIndex_eq hp
  have hcontains : image.chainedRebases.contains p.address = true :=
    decide_eq_true (image.mem_slots.2 ⟨p, hp, rfl⟩)
  cases p with
  | rebase address value =>
    show pointerWord _ address value = _
    unfold pointerWord
    simp only [show image.chainedRebases.bindImportIndex address = none from hbind,
      show image.chainedRebases.contains address = true from hcontains, if_true]
    rfl
  | bind address index addend =>
    show pointerWord _ address _ = _
    unfold pointerWord
    simp only [show image.chainedRebases.bindImportIndex address = some index from hbind]
    rfl
  | got address target index =>
    cases index with
    | none => rfl
    | some index => rfl

end Pointers

/-! ## What the loader reads -/

theorem Target.encode_rebase {value : ℕ} : (Target.rebase value).encode stride = .ok word ↔
      machoStartMemAddress ≤ value ∧ value - machoStartMemAddress < 2 ^ 36 ∧ stride < 2 ^ 12 ∧
        word = 2 ^ 51 * stride + (value - machoStartMemAddress) := by
  rw [Target.encode, encodeChainedRebase_eq_ok]

theorem Target.encode_bind {index : ℕ} {addend : ℤ} :
    (Target.bind index addend).encode stride = .ok word ↔
      index < 2 ^ 24 ∧ stride < 2 ^ 12 ∧ word = 2 ^ 63 + (2 ^ 51 * stride + index) := by
  rw [Target.encode, encodeChainedBind_eq_ok]

variable {target : Target}

theorem Target.encode_next
    (h : target.encode stride = .ok word) : word / 2 ^ 51 % 2 ^ 12 = stride := by
  cases target with
  | rebase value =>
    rw [Target.encode_rebase] at h
    omega
  | bind index addend =>
    rw [Target.encode_bind] at h
    omega

/-- The imports of a table, with their names. -/
structure FixupTable.Names (table : FixupTable) (imports : List ChainedImport) : Prop where
  length_eq : table.imports.length = imports.length
  entry : ∀ (i : ℕ) (chained : ChainedImport) (entry : ℕ), imports[i]? = some chained →
    table.imports[i]? = some entry →
    table.symbolName (entry / 2 ^ 9) = chained.name ∧
      entry % 2 ^ 8 = chained.libOrdinal.toNat

/-- What is left of a target in its word: the addend of a bind is not. -/
def Target.written : Target → Target
  | .rebase value => .rebase value
  | .bind index _ => .bind index 0

theorem Target.decode_encode {table : FixupTable}
    {imports : List ChainedImport} (hnames : table.Names imports)
    (h : target.encode stride = .ok word) :
    table.decode word = target.written.fixup imports := by
  cases target with
  | rebase value =>
    rw [Target.encode_rebase] at h
    have hkind : ¬word / 2 ^ 63 % 2 = 1 := by omega
    have hlow : machoStartMemAddress + word % 2 ^ 36 + word / 2 ^ 36 % 2 ^ 8 * 2 ^ 56 = value := by
      omega
    rw [FixupTable.decode, if_neg hkind, hlow]
    rfl
  | bind index addend =>
    rw [Target.encode_bind] at h
    have hkind : word / 2 ^ 63 % 2 = 1 := by omega
    have hlow : word % 2 ^ 24 = index := by omega
    have haddend : (word : ℤ) / 2 ^ 24 % 2 ^ 8 = 0 := by omega
    rw [FixupTable.decode, if_pos hkind, hlow]
    simp only [haddend]
    show _ = imports[index]?.map _
    cases hchained : imports[index]? with
    | none =>
      rw [List.getElem?_eq_none (hnames.length_eq.symm ▸ List.getElem?_eq_none_iff.1 hchained)]
      rfl
    | some chained =>
      obtain ⟨hlt, -⟩ := List.getElem?_eq_some_iff.1 hchained
      have hentry := List.getElem?_eq_getElem (hnames.length_eq.symm ▸ hlt)
      obtain ⟨hname, hordinal⟩ := hnames.entry index chained _ hchained hentry
      rw [hentry, Option.map_some, Option.map_some, hname, hordinal]

end Sld.MachO
