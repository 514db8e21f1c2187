/-
# `Layout.ThunkBlocks` — where the range-extension thunks go

Branches with a limited range reach far code through thunks.  Each object
uses one block of thunks, and each block is placed at the end of the object
that owns it.  Blocks are assigned in one pass over the objects in the order
of their addresses:

    previous   an object uses the last block placed, as long as it ends
               within the branch range of it
    next       objects use a block that is not placed yet, from the object
               that was out of range on; the block goes to the object that
               ends out of range of the first one's start

Every object gets one block and every block one owner.  An object is within
the range of its block but for the size of the owner (`Near`): that object
stands between the ones before it and the block.
-/
import Mathlib.Data.Fintype.EquivFin
import Mathlib.Data.Nat.Dist

namespace Sld.Layout.Thunks

open List (append_assoc length_append mem_append mem_append_left mem_append_right mem_cons
  mem_cons_of_mem mem_cons_self mem_singleton)
open UInt32 (ofNat)

/-- An object of the primary part, with the addresses of its code. -/
structure PrimaryObject where
  fileId : UInt32
  start : ℕ
  stop : ℕ
deriving DecidableEq

namespace PrimaryObject

variable (o : PrimaryObject)

def size : ℕ := o.stop - o.start

/-- The position is one of the object's bytes. -/
def HasByte (x : ℕ) : Prop := o.start ≤ x ∧ x < o.stop

end PrimaryObject

/-- `thunk_block_id` and `owns_thunk_block` -/
structure Assignment where
  blockId : UInt32
  isOwner : Bool
deriving DecidableEq

/-- What has been assigned, by file. -/
abbrev Assignments := UInt32 → Option Assignment

/-- The call of `assign`; the last one for a file counts. -/
def Assignments.assign (assignments : Assignments) (fileId blockId : UInt32) (isOwner : Bool) :
    Assignments :=
  Function.update assignments fileId (some ⟨blockId, isOwner⟩)

/-- How much room a block leaves for the thunks themselves. -/
def maximumThunkBytesPerBlock : ℕ := 2 * 1024 * 1024

/-- The variables of `assign_thunk_blocks`. -/
structure Builder where
  numBlocks : ℕ
  prevBlockId : UInt32
  prevBlockPos : ℕ
  /-- An unplaced block, the first file that uses it, and where that starts. -/
  pendingNext : Option (UInt32 × UInt32 × ℕ)
  assignments : Assignments

namespace Builder

/-- The first block belongs to the first object. -/
def first (o : PrimaryObject) : Builder where
  numBlocks := 1
  prevBlockId := 0
  prevBlockPos := o.stop
  pendingNext := none
  assignments := Assignments.assign (fun _ => none) o.fileId 0 true

variable (maxBranchRange : ℕ) (self : Builder)

/-- The body of the loop. -/
def step (o : PrimaryObject) : Builder :=
  match self.pendingNext with
  | some (nextId, firstFileId, firstObjectStart) =>
    if maxBranchRange ≤ o.stop - firstObjectStart then
      { self with
        assignments := (self.assignments.assign firstFileId nextId false).assign
          o.fileId nextId true
        prevBlockId := nextId
        prevBlockPos := o.stop
        pendingNext := none }
    else { self with assignments := self.assignments.assign o.fileId nextId false }
  | none =>
    if maxBranchRange ≤ o.stop - self.prevBlockPos then
      { self with
        numBlocks := self.numBlocks + 1
        pendingNext := some (UInt32.ofNat self.numBlocks, o.fileId, o.start) }
    else { self with assignments := self.assignments.assign o.fileId self.prevBlockId false }

/-- What is done after the loop: a block that is still pending goes to the first
object that uses it. -/
def finish : ℕ × Assignments :=
  match self.pendingNext with
  | some (nextId, firstFileId, _) => (self.numBlocks, self.assignments.assign firstFileId nextId true)
  | none => (self.numBlocks, self.assignments)

end Builder

def assignThunkBlocks (maxBranchRange : ℕ) : List PrimaryObject → ℕ × Assignments
  | [] => (0, fun _ => none)
  | o :: objects => (objects.foldl (Builder.step maxBranchRange) (Builder.first o)).finish

/-! ## What the pass guarantees -/

/-- The bytes of an object are near the end of the owner of its block. -/
def Near (maxBranchRange : ℕ) (o owner : PrimaryObject) : Prop :=
  ∀ x, o.HasByte x → Nat.dist x owner.stop ≤ max maxBranchRange o.size + owner.size

/-- The objects have their blocks; `owners` has the owner of each. -/
structure Settled (maxBranchRange : ℕ) (objects : List PrimaryObject) (assignments : Assignments)
    (owners : List PrimaryObject) : Prop where
  length_le : owners.length ≤ objects.length
  owner : ∀ b w, owners[b]? = some w → w ∈ objects ∧
    assignments w.fileId = some ⟨UInt32.ofNat b, true⟩
  object : ∀ o ∈ objects, ∃ b w isOwner, owners[b]? = some w ∧
    assignments o.fileId = some ⟨UInt32.ofNat b, isOwner⟩ ∧ (isOwner = true → o = w) ∧
    Near maxBranchRange o w

/-- The pass so far: `stop` is where the last object ends. -/
inductive Progress (maxBranchRange : ℕ) (objects : List PrimaryObject) (stop : ℕ) (s : Builder) :
    Prop
  | previous (owners : List PrimaryObject) (b : ℕ) (w : PrimaryObject)
      (settled : Settled maxBranchRange objects s.assignments owners)
      (pendingNext : s.pendingNext = none)
      (numBlocks : s.numBlocks = owners.length)
      (owner : owners[b]? = some w)
      (prevBlockId : s.prevBlockId = UInt32.ofNat b)
      (prevBlockPos : s.prevBlockPos = w.stop) : Progress maxBranchRange objects stop s
  | next (owners before middle : List PrimaryObject) (f : PrimaryObject)
      (objects_eq : objects = before ++ f :: middle)
      (settled : Settled maxBranchRange before s.assignments owners)
      (pendingNext : s.pendingNext = some (UInt32.ofNat owners.length, f.fileId, f.start))
      (numBlocks : s.numBlocks = owners.length + 1)
      (assigned : ∀ m ∈ middle, s.assignments m.fileId =
        some ⟨UInt32.ofNat owners.length, false⟩)
      (after : ∀ m ∈ middle, f.stop ≤ m.start)
      (reach : stop = f.stop ∨ stop - f.start < maxBranchRange) :
      Progress maxBranchRange objects stop s

section

variable {R stop : ℕ} {objects owners group : List PrimaryObject} {assignments : Assignments}
  {o w : PrimaryObject}

variable {isOwner : Bool}

theorem assign_self {fileId blockId : UInt32} :
    assignments.assign fileId blockId isOwner fileId = some ⟨blockId, isOwner⟩ :=
  Function.update_self _ _ _

theorem assign_of_ne {fileId other blockId : UInt32} (h : other ≠ fileId) :
    assignments.assign fileId blockId isOwner other = assignments other :=
  Function.update_of_ne h _ _

theorem Settled.congr (h : Settled R objects assignments owners) {other : Assignments}
    (hsame : ∀ o ∈ objects, other o.fileId = assignments o.fileId) :
    Settled R objects other owners where
  length_le := h.length_le
  owner b w hw := by
    obtain ⟨hmem, hassign⟩ := h.owner b w hw
    exact ⟨hmem, (hsame w hmem).trans hassign⟩
  object o ho := by
    obtain ⟨b, w, isOwner, hw, hassign, hrest⟩ := h.object o ho
    exact ⟨b, w, isOwner, hw, (hsame o ho).trans hassign, hrest⟩

theorem Settled.addObject (h : Settled R objects assignments owners) {b : ℕ}
    (hw : owners[b]? = some w) (ho : assignments o.fileId = some ⟨ofNat b, false⟩)
    (hnear : Near R o w) : Settled R (objects ++ [o]) assignments owners where
  length_le := by
    have := h.length_le
    rw [length_append]
    omega
  owner b w hw := by
    obtain ⟨hmem, hassign⟩ := h.owner b w hw
    exact ⟨mem_append_left _ hmem, hassign⟩
  object o' ho' := by
    rcases mem_append.1 ho' with ho' | ho'
    · exact h.object o' ho'
    · obtain rfl := mem_singleton.1 ho'
      refine ⟨b, w, false, hw, ho, ?_, hnear⟩
      intro hfalse
      cases hfalse

theorem Settled.addBlock (h : Settled R objects assignments owners) (hw : w ∈ group)
    (howner : assignments w.fileId = some ⟨ofNat owners.length, true⟩)
    (hgroup : ∀ o ∈ group, o = w ∨ assignments o.fileId = some ⟨ofNat owners.length, false⟩)
    (hnear : ∀ o ∈ group, Near R o w) :
    Settled R (objects ++ group) assignments (owners ++ [w]) where
  length_le := by
    have := h.length_le
    have := List.length_pos_of_mem hw
    rw [length_append, length_append, List.length_singleton]
    omega
  owner b w' hw' := by
    by_cases hb : b < owners.length
    · rw [List.getElem?_append_left hb] at hw'
      obtain ⟨hmem, hassign⟩ := h.owner b w' hw'
      exact ⟨mem_append_left _ hmem, hassign⟩
    · rw [List.getElem?_append_right (Nat.not_lt.1 hb), List.getElem?_singleton] at hw'
      split at hw'
      case isTrue hzero =>
        cases hw'
        obtain rfl : b = owners.length := by omega
        exact ⟨mem_append_right _ hw, howner⟩
      case isFalse => cases hw'
  object o ho := by
    have hlast : (owners ++ [w])[owners.length]? = some w := List.getElem?_concat_length
    rcases mem_append.1 ho with ho | ho
    · obtain ⟨b, w', isOwner, hw', hassign⟩ := h.object o ho
      obtain ⟨hb, _⟩ := List.getElem?_eq_some_iff.1 hw'
      exact ⟨b, w', isOwner, (List.getElem?_append_left hb).trans hw', hassign⟩
    · rcases hgroup o ho with rfl | hassign
      · exact ⟨_, o, true, hlast, howner, fun _ => rfl, hnear o ho⟩
      · refine ⟨_, w, false, hlast, hassign, ?_, hnear o ho⟩
        intro hfalse
        cases hfalse

/-! ## One object -/

/-- Where the next object is, and that it is another file. -/
structure Follows (objects : List PrimaryObject) (stop : ℕ) (o : PrimaryObject) : Prop where
  start_eq : o.start = stop
  start_le : o.start ≤ o.stop
  before : ∀ d ∈ objects, d.start ≤ d.stop ∧ d.stop ≤ stop
  fresh : ∀ d ∈ objects, d.fileId ≠ o.fileId

theorem near_of_le (h : ∀ x, o.HasByte x →
    x - w.stop ≤ max R o.size + w.size ∧ w.stop - x ≤ max R o.size + w.size) : Near R o w := by
  intro x hx
  have := h x hx
  unfold Nat.dist
  omega

theorem near_of_after (hstart : w.stop ≤ o.start) (hstop : o.stop - w.stop < R) : Near R o w := by
  refine near_of_le fun x hx => ?_
  have := hx.1
  have := hx.2
  omega

theorem near_self : Near R o o := by
  refine near_of_le fun x hx => ?_
  have := hx.1
  have := hx.2
  unfold PrimaryObject.size
  omega

variable {f : PrimaryObject}

theorem near_of_before (hf : f.start ≤ o.start) (ho : o.stop ≤ w.start)
    (hw : w.start ≤ w.stop) (hreach : w.start - f.start < R ∨ o = f ∧ w.start = o.stop) :
    Near R o w := by
  refine near_of_le fun x hx => ?_
  have := hx.1
  have := hx.2
  unfold PrimaryObject.size
  rcases hreach with hreach | ⟨rfl, hstop⟩
  · omega
  · omega

variable {s : Builder}

theorem Progress.step_previous (hnext : Follows objects stop o) {b : ℕ}
    (settled : Settled R objects s.assignments owners) (pendingNext : s.pendingNext = none)
    (numBlocks : s.numBlocks = owners.length) (owner : owners[b]? = some w)
    (prevBlockId : s.prevBlockId = ofNat b) (prevBlockPos : s.prevBlockPos = w.stop) :
    Progress R (objects ++ [o]) o.stop (s.step R o) := by
  have hw := hnext.before w (settled.owner b w owner).1
  have hstart := hnext.start_eq
  rw [Builder.step, pendingNext]
  show Progress R (objects ++ [o]) o.stop (if _ then _ else _)
  split
  case isTrue hfar =>
    refine .next owners objects [] o rfl settled ?_ (congrArg (· + 1) numBlocks) ?_ ?_ (.inl rfl)
    · rw [numBlocks]
    · intro m hm
      cases hm
    · intro m hm
      cases hm
  case isFalse hnear =>
    have hassign : Settled R objects (s.assignments.assign o.fileId s.prevBlockId false) owners :=
      settled.congr fun d hd => assign_of_ne (hnext.fresh d hd)
    refine .previous owners b w (hassign.addObject owner ?_ ?_) rfl numBlocks owner prevBlockId
      prevBlockPos
    · rw [assign_self, prevBlockId]
    · exact near_of_after (by omega) (by omega)

theorem ne_first_of_nodup {before middle : List PrimaryObject}
    (h : ((before ++ f :: middle).map PrimaryObject.fileId).Nodup) :
    (∀ d ∈ before, d.fileId ≠ f.fileId) ∧ ∀ m ∈ middle, m.fileId ≠ f.fileId := by
  obtain ⟨_, hrest, hapart⟩ := List.pairwise_append.1 (List.pairwise_map.1 h)
  obtain ⟨hfirst, _⟩ := List.pairwise_cons.1 hrest
  exact ⟨fun d hd => hapart d hd f mem_cons_self, fun m hm => (hfirst m hm).symm⟩

theorem Progress.step_next (hnext : Follows objects stop o)
    (hnodup : (objects.map PrimaryObject.fileId).Nodup) {before middle : List PrimaryObject}
    (objects_eq : objects = before ++ f :: middle) (settled : Settled R before s.assignments owners)
    (pendingNext : s.pendingNext = some (ofNat owners.length, f.fileId, f.start))
    (numBlocks : s.numBlocks = owners.length + 1)
    (assigned : ∀ m ∈ middle, s.assignments m.fileId = some ⟨ofNat owners.length, false⟩)
    (after : ∀ m ∈ middle, f.stop ≤ m.start) (reach : stop = f.stop ∨ stop - f.start < R) :
    Progress R (objects ++ [o]) o.stop (s.step R o) := by
  subst objects_eq
  obtain ⟨hbefore, hmiddle⟩ := ne_first_of_nodup hnodup
  have hstart := hnext.start_eq
  have hstop := hnext.start_le
  have hf := hnext.before f (mem_append_right _ mem_cons_self)
  have hm : ∀ m ∈ middle, m.stop ≤ stop := fun m hm =>
    (hnext.before m (mem_append_right _ (mem_cons_of_mem _ hm))).2
  have hfresh : ∀ d ∈ f :: middle, d.fileId ≠ o.fileId := fun d hd =>
    hnext.fresh d (mem_append_right _ hd)
  rw [Builder.step, pendingNext]
  show Progress R _ o.stop (if _ then _ else _)
  split
  case isTrue hfar =>
    -- the block goes to this object
    have hgroup : (before ++ f :: middle) ++ [o] = before ++ (f :: middle ++ [o]) :=
      append_assoc _ _ _
    have hsettled : Settled R before ((s.assignments.assign f.fileId
        (ofNat owners.length) false).assign o.fileId (ofNat owners.length) true)
        owners := by
      refine settled.congr fun d hd => ?_
      rw [assign_of_ne (hnext.fresh d (mem_append_left _ hd)), assign_of_ne (hbefore d hd)]
    refine .previous (owners ++ [o]) owners.length o ?_ rfl ?_ List.getElem?_concat_length rfl rfl
    · rw [hgroup]
      refine hsettled.addBlock (mem_append_right _ (List.mem_singleton_self _)) assign_self ?_ ?_
      · intro d hd
        rcases mem_append.1 hd with hd | hd
        · right
          rw [assign_of_ne (hfresh d hd)]
          rcases mem_cons.1 hd with rfl | hd
          · exact assign_self
          · rw [assign_of_ne (hmiddle d hd)]
            exact assigned d hd
        · exact .inl (mem_singleton.1 hd)
      · intro d hd
        rcases mem_append.1 hd with hd | hd
        · rcases mem_cons.1 hd with rfl | hd
          · refine near_of_before (f := d) (by omega) (by omega) hstop ?_
            rcases reach with hlast | hreach
            · exact .inr ⟨rfl, by omega⟩
            · exact .inl (by omega)
          · have hafter := after d hd
            have hend := hm d hd
            rcases reach with hlast | hreach
            · -- an object without a byte
              refine near_of_le fun x hx => ?_
              have := hx.1
              have := hx.2
              omega
            · exact near_of_before (f := f) (by omega) (by omega) hstop (.inl (by omega))
        · obtain rfl := mem_singleton.1 hd
          exact near_self
    · rw [length_append]
      exact numBlocks
  case isFalse hnear =>
    -- the block is still out of reach of no one
    have hsettled : Settled R before
        (s.assignments.assign o.fileId (ofNat owners.length) false) owners :=
      settled.congr fun d hd => assign_of_ne (hnext.fresh d (mem_append_left _ hd))
    refine .next owners before (middle ++ [o]) f (append_assoc _ _ _) hsettled rfl
      numBlocks ?_ ?_ (.inr (Nat.not_le.1 hnear))
    · intro d hd
      rcases mem_append.1 hd with hd | hd
      · show s.assignments.assign o.fileId _ false d.fileId = _
        rw [assign_of_ne (hfresh d (mem_cons_of_mem _ hd))]
        exact assigned d hd
      · obtain rfl := mem_singleton.1 hd
        exact assign_self
    · intro d hd
      rcases mem_append.1 hd with hd | hd
      · exact after d hd
      · obtain rfl := mem_singleton.1 hd
        omega

theorem Progress.step (hnext : Follows objects stop o)
    (hnodup : (objects.map PrimaryObject.fileId).Nodup) (h : Progress R objects stop s) :
    Progress R (objects ++ [o]) o.stop (s.step R o) := by
  cases h with
  | previous owners b w settled pendingNext numBlocks owner prevBlockId prevBlockPos =>
    exact step_previous hnext settled pendingNext numBlocks owner prevBlockId prevBlockPos
  | next owners before middle f objects_eq settled pendingNext numBlocks assigned after reach =>
    exact step_next hnext hnodup objects_eq settled pendingNext numBlocks assigned after reach

theorem progress_first : Progress R [o] o.stop (Builder.first o) := by
  have hnone : Settled R [] (Builder.first o).assignments [] :=
    { length_le := Nat.le_refl _
      owner := fun b w hw => by cases hw
      object := nofun }
  have howner : Assignments.assign (fun _ => none) o.fileId 0 true o.fileId = some ⟨0, true⟩ :=
    assign_self
  refine .previous [o] 0 o (hnone.addBlock mem_cons_self howner ?_ ?_) rfl rfl rfl rfl rfl
  · intro d hd
    exact .inl (mem_singleton.1 hd)
  · intro d hd
    obtain rfl := mem_singleton.1 hd
    exact near_self

theorem Progress.finish (hnodup : (objects.map PrimaryObject.fileId).Nodup)
    (hbefore : ∀ d ∈ objects, d.start ≤ d.stop ∧ d.stop ≤ stop) (h : Progress R objects stop s) :
    ∃ owners, Settled R objects s.finish.2 owners ∧ s.finish.1 = owners.length := by
  cases h with
  | previous owners b w settled pendingNext numBlocks =>
    refine ⟨owners, ?_, ?_⟩
    · rw [Builder.finish, pendingNext]
      exact settled
    · rw [Builder.finish, pendingNext]
      exact numBlocks
  | next owners before middle f objects_eq settled pendingNext numBlocks assigned after reach =>
    subst objects_eq
    obtain ⟨hfirst, hmiddle⟩ := ne_first_of_nodup hnodup
    refine ⟨owners ++ [f], ?_, ?_⟩
    · rw [Builder.finish, pendingNext]
      have hsettled : Settled R before
          (s.assignments.assign f.fileId (ofNat owners.length) true) owners :=
        settled.congr fun d hd => assign_of_ne (hfirst d hd)
      refine hsettled.addBlock mem_cons_self assign_self ?_ ?_
      · intro d hd
        rcases mem_cons.1 hd with rfl | hd
        · exact .inl rfl
        · right
          rw [assign_of_ne (hmiddle d hd)]
          exact assigned d hd
      · intro d hd
        rcases mem_cons.1 hd with rfl | hd
        · exact near_self
        · -- the block is at the end of the first object
          have hafter := after d hd
          have hf := hbefore f (mem_append_right _ mem_cons_self)
          have hd' := hbefore d (mem_append_right _ (mem_cons_of_mem _ hd))
          refine near_of_le fun x hx => ?_
          have := hx.1
          have := hx.2
          omega
    · rw [Builder.finish, pendingNext, length_append]
      exact numBlocks

/-! ## The whole pass -/

/-- Objects at contiguous addresses, each of another file. -/
structure Contiguous (objects : List PrimaryObject) : Prop where
  start_le : ∀ o ∈ objects, o.start ≤ o.stop
  chain : objects.IsChain fun a b => a.stop = b.start
  nodup : (objects.map PrimaryObject.fileId).Nodup

theorem Progress.run {done rest : List PrimaryObject} {last : PrimaryObject}
    (hbefore : ∀ d ∈ done, d.start ≤ d.stop ∧ d.stop ≤ last.stop)
    (hle : ∀ o ∈ rest, o.start ≤ o.stop)
    (hchain : (last :: rest).IsChain fun a b => a.stop = b.start)
    (hnodup : ((done ++ rest).map PrimaryObject.fileId).Nodup) (h : Progress R done last.stop s) :
    ∃ owners, Settled R (done ++ rest) (rest.foldl (Builder.step R) s).finish.2 owners ∧
      (rest.foldl (Builder.step R) s).finish.1 = owners.length := by
  induction rest generalizing done last s with
  | nil =>
    rw [List.append_nil] at hnodup ⊢
    exact h.finish hnodup hbefore
  | cons o rest ih =>
    obtain ⟨hstart, hrest⟩ := List.isChain_cons_cons.1 hchain
    have ho := hle o mem_cons_self
    have happend : done ++ o :: rest = (done ++ [o]) ++ rest := by
      rw [append_assoc, List.singleton_append]
    have hdone : (done.map PrimaryObject.fileId).Nodup := by
      rw [List.map_append] at hnodup
      exact hnodup.sublist (List.sublist_append_left _ _)
    have hnext : Follows done last.stop o :=
      { start_eq := hstart.symm
        start_le := ho
        before := hbefore
        fresh := fun d hd =>
          (List.pairwise_append.1 (List.pairwise_map.1 hnodup)).2.2 d hd o mem_cons_self }
    rw [happend] at hnodup ⊢
    refine ih ?_ (fun o' ho' => hle o' (mem_cons_of_mem _ ho')) hrest hnodup
      (h.step hnext hdone)
    intro d hd
    rcases mem_append.1 hd with hd | hd
    · have := hbefore d hd
      omega
    · obtain rfl := mem_singleton.1 hd
      exact ⟨ho, Nat.le_refl _⟩

theorem settled_assignThunkBlocks (h : Contiguous objects) :
    ∃ owners, Settled R objects (assignThunkBlocks R objects).2 owners ∧
      (assignThunkBlocks R objects).1 = owners.length := by
  cases objects with
  | nil =>
    exact ⟨[], { length_le := Nat.le_refl _
                 owner := fun b w hw => by cases hw
                 object := nofun }, rfl⟩
  | cons o rest =>
    refine progress_first.run ?_ (fun o' ho' => h.start_le o' (mem_cons_of_mem _ ho'))
      h.chain h.nodup
    intro d hd
    obtain rfl := mem_singleton.1 hd
    exact ⟨h.start_le d mem_cons_self, Nat.le_refl _⟩

theorem length_le_of_nodup (h : (objects.map PrimaryObject.fileId).Nodup) :
    objects.length ≤ 2 ^ 32 := by
  have hnodup : ((objects.map PrimaryObject.fileId).map UInt32.toFin).Nodup :=
    h.map fun a b hab => UInt32.toFin_inj.1 hab
  have := hnodup.length_le_card
  rwa [List.length_map, List.length_map, Fintype.card_fin] at this

theorem block_eq {a b : ℕ} (ha : a < 2 ^ 32) (hb : b < 2 ^ 32)
    (h : ofNat a = ofNat b) : a = b := by
  have := congrArg UInt32.toNat h
  rwa [UInt32.toNat_ofNat_of_lt' ha, UInt32.toNat_ofNat_of_lt' hb] at this

end

/-- What the pass gives each object and each block. -/
structure Assigned (maxBranchRange : ℕ) (objects : List PrimaryObject) (numBlocks : ℕ)
    (assignments : Assignments) : Prop where
  /-- Block ids do not wrap around. -/
  numBlocks_le : numBlocks ≤ 2 ^ 32
  object : ∀ o ∈ objects, ∃ a, assignments o.fileId = some a ∧ a.blockId.toNat < numBlocks
  owner : ∀ b : UInt32, b.toNat < numBlocks →
    ∃! w, w ∈ objects ∧ assignments w.fileId = some ⟨b, true⟩
  near : ∀ o ∈ objects, ∀ w ∈ objects, ∀ b isOwner, assignments o.fileId = some ⟨b, isOwner⟩ →
    assignments w.fileId = some ⟨b, true⟩ → Near maxBranchRange o w

/-- Every byte of every object reaches the block of the object. -/
def InBranchRange (maxBranchRange : ℕ) (objects : List PrimaryObject) (assignments : Assignments) :
    Prop :=
  ∀ o ∈ objects, ∀ w ∈ objects, ∀ b isOwner, assignments o.fileId = some ⟨b, isOwner⟩ →
    assignments w.fileId = some ⟨b, true⟩ → ∀ x, o.HasByte x →
      Nat.dist x w.stop ≤ maxBranchRange + maximumThunkBytesPerBlock

theorem Settled.assigned {R : ℕ} {objects owners : List PrimaryObject} {assignments : Assignments}
    (hnodup : (objects.map PrimaryObject.fileId).Nodup) (h : Settled R objects assignments owners) :
    Assigned R objects owners.length assignments := by
  have hle : owners.length ≤ 2 ^ 32 := Nat.le_trans h.length_le (length_le_of_nodup hnodup)
  -- an owner is the one of its block
  have hunique : ∀ b w, owners[b]? = some w → ∀ o ∈ objects,
      assignments o.fileId = some ⟨ofNat b, true⟩ → o = w := by
    intro b w hw o ho hassign
    obtain ⟨b', w', isOwner, hw', hassign', howner, _⟩ := h.object o ho
    obtain ⟨hb, _⟩ := List.getElem?_eq_some_iff.1 hw
    obtain ⟨hb', _⟩ := List.getElem?_eq_some_iff.1 hw'
    obtain ⟨hid, htrue⟩ := Assignment.mk.inj (Option.some.inj (hassign'.symm.trans hassign))
    obtain rfl := block_eq (by omega) (by omega) hid
    exact (howner htrue).trans (Option.some.inj (hw'.symm.trans hw))
  refine ⟨hle, ?_, ?_, ?_⟩
  · intro o ho
    obtain ⟨b, w, isOwner, hw, hassign, _⟩ := h.object o ho
    obtain ⟨hb, _⟩ := List.getElem?_eq_some_iff.1 hw
    refine ⟨_, hassign, ?_⟩
    rwa [UInt32.toNat_ofNat_of_lt' (by exact Nat.lt_of_lt_of_le hb hle)]
  · intro b hb
    have hw : owners[b.toNat]? = some (owners.get ⟨b.toNat, hb⟩) := List.getElem?_eq_getElem hb
    obtain ⟨hmem, hassign⟩ := h.owner _ _ hw
    rw [UInt32.ofNat_toNat] at hassign
    refine ⟨_, ⟨hmem, hassign⟩, ?_⟩
    rintro o ⟨ho, hassign'⟩
    refine hunique _ _ hw o ho ?_
    rw [UInt32.ofNat_toNat, hassign']
  · intro o ho w hw b isOwner hassign howner
    obtain ⟨b', w', isOwner', hw', hassign', _, hnear⟩ := h.object o ho
    obtain ⟨hid, _⟩ := Assignment.mk.inj (Option.some.inj (hassign'.symm.trans hassign))
    obtain rfl := hunique b' w' hw' w hw (by rw [hid, howner])
    exact hnear

/-- **Every object gets one block and every block one owner**, ids without a gap; a
byte of an object is away from the block by no more than the branch range, or
the object's size, and the owner's size.  So the block is in range unless the
object is larger than the branch range or the owner larger than the room
left for the thunks. -/
theorem assignThunkBlocks_assigned {maxBranchRange : ℕ} {objects : List PrimaryObject}
    (h : Contiguous objects) :
    Assigned maxBranchRange objects (assignThunkBlocks maxBranchRange objects).1
      (assignThunkBlocks maxBranchRange objects).2 ∧
    ((∀ o ∈ objects, o.size ≤ maxBranchRange ∧ o.size ≤ maximumThunkBytesPerBlock) →
      InBranchRange maxBranchRange objects (assignThunkBlocks maxBranchRange objects).2) := by
  obtain ⟨owners, hsettled, hnum⟩ := settled_assignThunkBlocks (R := maxBranchRange) h
  have hassign := hsettled.assigned h.nodup
  rw [hnum]
  refine ⟨hassign, ?_⟩
  intro hsizes o ho w hw b isOwner hb howner x hx
  have hnear := hassign.near o ho w hw b isOwner hb howner x hx
  have := hsizes o ho
  have := hsizes w hw
  omega

/-- Five objects and two blocks. -/
theorem assigned_around_gap : Assigned 500 [⟨0, 0, 100⟩, ⟨1, 100, 400⟩, ⟨2, 400, 700⟩, ⟨3, 700, 900⟩,
      ⟨4, 900, 1000⟩]
    (assignThunkBlocks 500 [⟨0, 0, 100⟩, ⟨1, 100, 400⟩, ⟨2, 400, 700⟩, ⟨3, 700, 900⟩,
      ⟨4, 900, 1000⟩]).1
    (assignThunkBlocks 500 [⟨0, 0, 100⟩, ⟨1, 100, 400⟩, ⟨2, 400, 700⟩, ⟨3, 700, 900⟩,
      ⟨4, 900, 1000⟩]).2 :=
  (assignThunkBlocks_assigned ⟨by decide, by decide, by decide⟩).1

/-! ## Large objects -/

/-- Four objects of 100 MiB. -/
def largeObjects : List PrimaryObject :=
  [⟨0, 0, 104857600⟩, ⟨1, 104857600, 209715200⟩, ⟨2, 209715200, 314572800⟩,
    ⟨3, 314572800, 419430400⟩]

/-- With branches of 128 MiB, the start of the third object is 200 MiB before the
block it shares with the fourth, which is not placed until that one turns out to
be too far. -/
theorem large_objects_out_of_range :
    (∀ o ∈ largeObjects, o.start ≤ o.stop ∧ o.size ≤ 132120576) ∧
    largeObjects.IsChain (fun a b => a.stop = b.start) ∧
    (largeObjects.map PrimaryObject.fileId).Nodup ∧
    ¬ InBranchRange 132120576 largeObjects (assignThunkBlocks 132120576 largeObjects).2 := by
  refine ⟨by decide, by decide, by decide, ?_⟩
  intro h
  have hfar := h ⟨2, 209715200, 314572800⟩ (by decide) ⟨3, 314572800, 419430400⟩ (by decide) 1 false
    (by decide +kernel) (by decide +kernel) 209715200 ⟨by decide, by decide⟩
  exact absurd hfar (by decide)

end Sld.Layout.Thunks
