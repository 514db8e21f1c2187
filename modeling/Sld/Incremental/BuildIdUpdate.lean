/-
# `Incremental.BuildIdUpdate` — an updated build ID is the one of a new link

A tree that is built holds the chaining values of the cleared output
(`buildIdHashTree_eq`).  An update that is told of every group in which the
cleared output has changed leaves those of the new one: a subtree without
such a group has the values it had, and a subtree with one is hashed again
(`updateBuildIdSubtreeHash_eq`).  So both give the hash of the cleared
output (`updated_build_id`).
-/
import Sld.Hash.Blake3
import Sld.Incremental.BuildId

namespace Sld.Incremental.BuildId

open Hash (SubtreeHash Placed)
open Hash.SubtreeHash
open Store (window splice)
open Text.Reader (ok_bind bind_eq_ok)
open List (append_assoc cons_append length_append length_drop length_replicate nil_append)

variable {h : SubtreeHash Digest}

/-! ## The cleared output -/

/-- The output with zeros in the range of the note. -/
def cleared (bytes : List UInt8) (zeroRange : ℕ × ℕ) : List UInt8 :=
  bytes.mapIdx fun i b => if zeroRange.1 ≤ i ∧ i < zeroRange.2 then 0 else b

section

variable {bytes : List UInt8} {zeroRange : ℕ × ℕ} {start len i : ℕ}

@[simp] theorem length_cleared : (cleared bytes zeroRange).length = bytes.length :=
  List.length_mapIdx

theorem getElem?_cleared : (cleared bytes zeroRange)[i]? =
    bytes[i]?.map fun b => if zeroRange.1 ≤ i ∧ i < zeroRange.2 then 0 else b :=
  List.getElem?_mapIdx

theorem getElem?_cleared_inside (h : zeroRange.1 ≤ i ∧ i < zeroRange.2) (hi : i < bytes.length) :
    (cleared bytes zeroRange)[i]? = some 0 := by
  rw [getElem?_cleared, List.getElem?_eq_getElem hi, Option.map_some, if_pos h]

theorem getElem?_cleared_outside (h : ¬ (zeroRange.1 ≤ i ∧ i < zeroRange.2)) :
    (cleared bytes zeroRange)[i]? = bytes[i]? := by
  rw [getElem?_cleared]
  simp only [if_neg h, Option.map_id']

theorem buildIdLeafHash_eq (hin : start + len ≤ bytes.length) :
    buildIdLeafHash h bytes start len zeroRange =
      h.nonRoot (window (cleared bytes zeroRange) start len) start := by
  have hlength : (window bytes start len).length = len := Store.length_window hin
  unfold buildIdLeafHash intersectRanges
  dsimp only
  by_cases hoverlap : max start zeroRange.1 < min (start + len) zeroRange.2
  · rw [if_pos hoverlap]
    refine congrArg (h.nonRoot · start) (List.ext_getElem? fun i => ?_)
    have hbound : max start zeroRange.1 - start + (List.replicate (min (start + len) zeroRange.2 -
        max start zeroRange.1) (0 : UInt8)).length ≤ (window bytes start len).length := by
      rw [length_replicate, hlength]
      omega
    by_cases hi : i < len
    · rw [Store.getElem?_window hi]
      by_cases hzero : zeroRange.1 ≤ start + i ∧ start + i < zeroRange.2
      · rw [getElem?_cleared_inside hzero (by omega)]
        obtain ⟨k, hk⟩ : ∃ k, i = max start zeroRange.1 - start + k :=
          ⟨i - (max start zeroRange.1 - start), by omega⟩
        rw [hk, Store.getElem?_splice_inside hbound]
        · rw [List.getElem?_replicate, if_pos (by omega)]
        · rw [length_replicate]
          omega
      · rw [getElem?_cleared_outside hzero, Store.getElem?_splice_outside hbound]
        · exact Store.getElem?_window hi
        · rw [length_replicate]
          omega
    · have hcleared : (window (cleared bytes zeroRange) start len).length ≤ len :=
        Store.length_window_le
      rw [List.getElem?_eq_none (by rw [Store.length_splice hbound]; omega),
        List.getElem?_eq_none (by omega)]
  · rw [if_neg hoverlap]
    refine congrArg (h.nonRoot · start) (Store.window_congr fun i hi hi' => ?_)
    exact (getElem?_cleared_outside (by omega)).symm

end

/-! ## Building the tree -/

section

variable {bytes : List UInt8} {zeroRange : ℕ × ℕ} {start len : ℕ} {tree : List Digest}

theorem buildIdSubtreeHash_of_le (hlen : len ≤ h.groupLen 6) :
    buildIdSubtreeHash h bytes zeroRange start len tree =
      (buildIdLeafHash h bytes start len zeroRange,
        tree.set 0 (buildIdLeafHash h bytes start len zeroRange)) := by
  have hgroup : len ≤ buildIdHashGroupLen h := hlen
  rw [buildIdSubtreeHash, dif_pos hgroup]

theorem buildIdSubtreeHash_of_lt (hlen : h.groupLen 6 < len) {left right : Digest × List Digest}
    (hleft : buildIdSubtreeHash h bytes zeroRange start (h.leftSubtreeLen len)
      ((tree.drop 1).take (h.nodeCount 6 (h.leftSubtreeLen len))) = left)
    (hright : buildIdSubtreeHash h bytes zeroRange (start + h.leftSubtreeLen len)
      (len - h.leftSubtreeLen len)
      ((tree.drop 1).drop (h.nodeCount 6 (h.leftSubtreeLen len))) = right) :
    buildIdSubtreeHash h bytes zeroRange start len tree =
      (h.mergeNonRoot left.1 right.1, h.mergeNonRoot left.1 right.1 :: (left.2 ++ right.2)) := by
  have hgroup : ¬ len ≤ buildIdHashGroupLen h := Nat.not_le.mpr hlen
  rw [buildIdSubtreeHash, dif_neg hgroup, ← hleft, ← hright]
  rfl

theorem buildIdSubtreeHash_eq (hpos : 0 < len) (hin : start + len ≤ bytes.length)
    (hplaced : Placed h.chunkLen start len) (htree : tree.length = h.nodeCount 6 len) :
    buildIdSubtreeHash h bytes zeroRange start len tree =
      (h.nonRoot (window (cleared bytes zeroRange) start len) start,
        h.chainingValues 6 (cleared bytes zeroRange) start len) := by
  induction len using Nat.strong_induction_on generalizing start tree with
  | _ len ih =>
    rcases Nat.lt_or_ge (h.groupLen 6) len with hlen | hlen
    · have hchunk := chunkLen_lt hlen
      have hlt := leftSubtreeLen_lt hchunk
      have hleftPos := leftSubtreeLen_pos hchunk
      have hcount := nodeCount_of_lt hlen
      have hleftLength : ((tree.drop 1).take (h.nodeCount 6 (h.leftSubtreeLen len))).length =
          h.nodeCount 6 (h.leftSubtreeLen len) := by
        rw [List.length_take, length_drop]
        omega
      have hrightLength : ((tree.drop 1).drop (h.nodeCount 6 (h.leftSubtreeLen len))).length =
          h.nodeCount 6 (len - h.leftSubtreeLen len) := by
        rw [length_drop, length_drop]
        omega
      have hleft := ih _ hlt hleftPos (by omega) (placed_left hchunk hplaced) hleftLength
      have hright := ih _ (by omega) (by omega) (by omega) (placed_right hchunk hplaced)
        hrightLength
      rw [buildIdSubtreeHash_of_lt hlen hleft hright, chainingValues_of_lt hlen,
        nonRoot_window hchunk hplaced (by rw [length_cleared]; exact hin)]
    · have hone : tree.length = 1 := htree.trans (nodeCount_of_le hpos hlen)
      obtain ⟨node, rfl⟩ := List.length_eq_one_iff.mp hone
      rw [buildIdSubtreeHash_of_le hlen, chainingValues_of_le hlen, buildIdLeafHash_eq hin]
      rfl

theorem buildIdHashTree_eq (hlen : h.groupLen 6 < bytes.length) :
    buildIdHashTree h bytes zeroRange = some
      (h.chainingValues 6 (cleared bytes zeroRange) 0 (h.leftSubtreeLen bytes.length) ++
        h.chainingValues 6 (cleared bytes zeroRange) (h.leftSubtreeLen bytes.length)
          (bytes.length - h.leftSubtreeLen bytes.length)) := by
  have hgroup : ¬ bytes.length ≤ buildIdHashGroupLen h := Nat.not_le.mpr hlen
  have hchunk := chunkLen_lt hlen
  have hlt := leftSubtreeLen_lt hchunk
  have hplaced := placed_zero (h := h) bytes.length
  have hright := placed_right hchunk hplaced
  rw [Nat.zero_add] at hright
  unfold buildIdHashTree buildIdHashNodeCount
  rw [if_neg hgroup]
  show some (_ ++ _) = _
  rw [buildIdSubtreeHash_eq (leftSubtreeLen_pos hchunk) (by omega) (placed_left hchunk hplaced),
    buildIdSubtreeHash_eq (by omega) (by omega) hright]
  · rw [length_drop, length_replicate]
    exact Nat.add_sub_cancel_left _ _
  · rw [List.length_take, length_replicate]
    exact Nat.min_eq_left (Nat.le_add_right _ _)

theorem length_of_buildIdHashTree (h' : buildIdHashTree h bytes zeroRange = some tree) :
    h.groupLen 6 < bytes.length ∧ buildIdHashNodeCount h bytes.length = some tree.length := by
  have hlen : h.groupLen 6 < bytes.length := by
    refine Nat.not_le.mp fun hle => ?_
    have hgroup : bytes.length ≤ buildIdHashGroupLen h := hle
    unfold buildIdHashTree buildIdHashNodeCount at h'
    rw [if_pos hgroup] at h'
    cases h'
  have hgroup : ¬ bytes.length ≤ buildIdHashGroupLen h := Nat.not_le.mpr hlen
  have hlt := leftSubtreeLen_lt (chunkLen_lt hlen)
  refine ⟨hlen, ?_⟩
  rw [buildIdHashTree_eq hlen] at h'
  cases h'
  unfold buildIdHashNodeCount
  rw [if_neg hgroup, length_append,
    length_chainingValues (leftSubtreeLen_pos (chunkLen_lt hlen)), length_chainingValues (by omega)]
  rfl

end

/-! ## Updating the tree -/

section

variable {output : List UInt8} {zeroRange : ℕ × ℕ} {chunks : List ℕ} {start len index : ℕ}
  {tree before after : List Digest} {old new : List UInt8}

theorem updateBuildIdSubtreeHash_of_untouched (hfree : touchedChunksOverlap h chunks start len = false) :
    updateBuildIdSubtreeHash h output zeroRange chunks tree index start len = (false, tree) := by
  rw [updateBuildIdSubtreeHash, if_pos]
  rw [hfree]
  exact Bool.false_ne_true

theorem updateBuildIdSubtreeHash_of_le (htouched : touchedChunksOverlap h chunks start len = true)
    (hlen : len ≤ h.groupLen 6) :
    updateBuildIdSubtreeHash h output zeroRange chunks tree index start len =
      (true, tree.set index (buildIdLeafHash h output start len zeroRange)) := by
  have hgroup : len ≤ buildIdHashGroupLen h := hlen
  rw [updateBuildIdSubtreeHash, if_neg (not_not.mpr htouched), dif_pos hgroup]

theorem updateBuildIdSubtreeHash_of_lt (htouched : touchedChunksOverlap h chunks start len = true)
    (hlen : h.groupLen 6 < len) {left right : Bool × List Digest}
    (hleft : updateBuildIdSubtreeHash h output zeroRange chunks tree (index + 1) start
      (h.leftSubtreeLen len) = left)
    (hright : updateBuildIdSubtreeHash h output zeroRange chunks left.2
      (index + 1 + h.nodeCount 6 (h.leftSubtreeLen len)) (start + h.leftSubtreeLen len)
      (len - h.leftSubtreeLen len) = right) :
    updateBuildIdSubtreeHash h output zeroRange chunks tree index start len =
      if left.1 || right.1 then
        (true, mergeAt h right.2 index (index + 1)
          (index + 1 + h.nodeCount 6 (h.leftSubtreeLen len)))
      else (false, right.2) := by
  have hgroup : ¬ len ≤ buildIdHashGroupLen h := Nat.not_le.mpr hlen
  rw [updateBuildIdSubtreeHash, if_neg (not_not.mpr htouched), dif_neg hgroup, ← hright, ← hleft]
  rfl

theorem same_of_untouched (hpos : 0 < len)
    (hcover : ∀ i, new[i]? ≠ old[i]? → i / h.groupLen 6 ∈ chunks)
    (hfree : touchedChunksOverlap h chunks start len = false) (i : ℕ) (hi : start ≤ i)
    (hi' : i < start + len) : new[i]? = old[i]? := by
  by_contra hne
  unfold touchedChunksOverlap at hfree
  rw [if_neg (by omega)] at hfree
  refine List.any_eq_false.mp hfree _ (hcover i hne) ?_
  rw [Bool.and_eq_true, decide_eq_true_eq, decide_eq_true_eq]
  exact ⟨Nat.div_le_div_right hi, Nat.div_le_div_right (by omega)⟩

theorem mergeAt_eq {node left right : Digest} {lefts rights : List Digest} {count : ℕ}
    (hindex : index = before.length) (hcount : (left :: lefts).length = count) :
    mergeAt h (before ++ (node :: (left :: lefts ++ right :: rights)) ++ after) index (index + 1)
      (index + 1 + count) =
      before ++ (h.mergeNonRoot left right :: (left :: lefts ++ right :: rights)) ++ after := by
  subst hindex
  have hleft : (before ++ (node :: (left :: lefts ++ right :: rights)) ++ after)[before.length + 1]? =
      some left := by
    rw [append_assoc, List.getElem?_append_right (by omega), Nat.add_sub_cancel_left]
    rfl
  have hright : (before ++ (node :: (left :: lefts ++ right :: rights)) ++
      after)[before.length + 1 + count]? = some right := by
    rw [append_assoc, List.getElem?_append_right (by omega), Nat.add_assoc,
      Nat.add_sub_cancel_left, Nat.add_comm 1, ← hcount, cons_append, List.getElem?_cons_succ,
      append_assoc, List.getElem?_append_right (Nat.le_refl _), Nat.sub_self]
    rfl
  unfold mergeAt
  rw [hleft, hright]
  dsimp only
  rw [append_assoc, List.set_append_right _ _ (Nat.le_refl _), Nat.sub_self, append_assoc]
  rfl

/-- **One subtree**: it ends with the values of the new output, and it is not
hashed again only if they are those of the old one. -/
theorem updateBuildIdSubtreeHash_eq (hpos : 0 < len) (hin : start + len ≤ output.length)
    (hplaced : Placed h.chunkLen start len) (hnew : new = cleared output zeroRange)
    (hold : old.length = output.length)
    (hcover : ∀ i, new[i]? ≠ old[i]? → i / h.groupLen 6 ∈ chunks) (hindex : index = before.length)
    (htree : tree = before ++ h.chainingValues 6 old start len ++ after) :
    (updateBuildIdSubtreeHash h output zeroRange chunks tree index start len).2 =
        before ++ h.chainingValues 6 new start len ++ after ∧
      ((updateBuildIdSubtreeHash h output zeroRange chunks tree index start len).1 = false →
        h.chainingValues 6 new start len = h.chainingValues 6 old start len) := by
  induction len using Nat.strong_induction_on generalizing start index tree before after with
  | _ len ih =>
    cases htouched : touchedChunksOverlap h chunks start len with
    | false =>
      have hsame : h.chainingValues 6 new start len = h.chainingValues 6 old start len :=
        chainingValues_congr (same_of_untouched hpos hcover htouched)
      rw [updateBuildIdSubtreeHash_of_untouched htouched, hsame]
      exact ⟨htree, fun _ => rfl⟩
    | true =>
      rcases Nat.lt_or_ge (h.groupLen 6) len with hlen | hlen
      · have hchunk := chunkLen_lt hlen
        have hlt := leftSubtreeLen_lt hchunk
        have hleftPos := leftSubtreeLen_pos hchunk
        have hnewLength : new.length = output.length := hnew ▸ length_cleared
        obtain ⟨lefts, hlefts⟩ : ∃ rest, h.chainingValues 6 new start (h.leftSubtreeLen len) =
            h.nonRoot (window new start (h.leftSubtreeLen len)) start :: rest :=
          chainingValues_head
        obtain ⟨rights, hrights⟩ : ∃ rest, h.chainingValues 6 new
            (start + h.leftSubtreeLen len) (len - h.leftSubtreeLen len) =
            h.nonRoot (window new (start + h.leftSubtreeLen len) (len - h.leftSubtreeLen len))
              (start + h.leftSubtreeLen len) :: rest :=
          chainingValues_head
        have hcount : (h.chainingValues 6 new start (h.leftSubtreeLen len)).length =
            h.nodeCount 6 (h.leftSubtreeLen len) := length_chainingValues hleftPos
        have hmerged : h.nonRoot (window new start len) start = h.mergeNonRoot
            (h.nonRoot (window new start (h.leftSubtreeLen len)) start)
            (h.nonRoot (window new (start + h.leftSubtreeLen len) (len - h.leftSubtreeLen len))
              (start + h.leftSubtreeLen len)) :=
          nonRoot_window hchunk hplaced (by omega)
        rw [chainingValues_of_lt hlen] at htree
        -- the left half comes after the node
        have hleftIndex : index + 1 =
            (before ++ [h.nonRoot (window old start len) start]).length := by
          rw [length_append, hindex]
          rfl
        have hleftTree : tree = before ++ [h.nonRoot (window old start len) start] ++
            h.chainingValues 6 old start (h.leftSubtreeLen len) ++
            (h.chainingValues 6 old (start + h.leftSubtreeLen len)
              (len - h.leftSubtreeLen len) ++ after) := by
          rw [htree]
          simp only [append_assoc, cons_append, nil_append]
        obtain ⟨hleft, hleftSame⟩ := ih _ hlt hleftPos (by omega) (placed_left hchunk hplaced)
          hleftIndex hleftTree
        -- and the right half after the left
        have hrightIndex : index + 1 + h.nodeCount 6 (h.leftSubtreeLen len) =
            (before ++ [h.nonRoot (window old start len) start] ++
              h.chainingValues 6 new start (h.leftSubtreeLen len)).length := by
          rw [length_append, hcount, hleftIndex]
        have hrightTree : (updateBuildIdSubtreeHash h output zeroRange chunks tree (index + 1)
            start (h.leftSubtreeLen len)).2 =
            before ++ [h.nonRoot (window old start len) start] ++
              h.chainingValues 6 new start (h.leftSubtreeLen len) ++
              h.chainingValues 6 old (start + h.leftSubtreeLen len)
                (len - h.leftSubtreeLen len) ++ after := by
          rw [hleft]
          simp only [append_assoc]
        obtain ⟨hright, hrightSame⟩ := ih _ (by omega) (by omega) (by omega)
          (placed_right hchunk hplaced) hrightIndex hrightTree
        rw [updateBuildIdSubtreeHash_of_lt htouched hlen rfl rfl]
        split
        · have hnode : before ++ [h.nonRoot (window old start len) start] ++
              h.chainingValues 6 new start (h.leftSubtreeLen len) ++
              h.chainingValues 6 new (start + h.leftSubtreeLen len)
                (len - h.leftSubtreeLen len) ++ after =
              before ++ (h.nonRoot (window old start len) start ::
                (h.chainingValues 6 new start (h.leftSubtreeLen len) ++
                  h.chainingValues 6 new (start + h.leftSubtreeLen len)
                    (len - h.leftSubtreeLen len))) ++ after := by
            simp only [append_assoc, cons_append, nil_append]
          refine ⟨?_, fun hfalse => absurd hfalse Bool.true_eq_false.mp⟩
          show mergeAt h _ index (index + 1) _ = _
          rw [hright, hnode, chainingValues_of_lt hlen, hmerged]
          rw [hlefts] at hcount ⊢
          rw [hrights]
          exact mergeAt_eq hindex hcount
        · next hflags =>
          rw [Bool.or_eq_true, not_or] at hflags
          have hleftEq := hleftSame (Bool.eq_false_iff.mpr hflags.1)
          have hrightEq := hrightSame (Bool.eq_false_iff.mpr hflags.2)
          -- neither half has changed, and so neither has the node
          have hsame : h.chainingValues 6 new start len = h.chainingValues 6 old start len :=
            chainingValues_eq_of_halves hlen hplaced (by omega) (by omega) hleftEq hrightEq
          refine ⟨?_, fun _ => hsame⟩
          rw [hright, hsame, hleftEq, hrightEq, chainingValues_of_lt hlen]
          simp only [append_assoc, cons_append, nil_append]
      · rw [updateBuildIdSubtreeHash_of_le htouched hlen, htree, hindex, chainingValues_of_le hlen,
          chainingValues_of_le hlen, buildIdLeafHash_eq hin, append_assoc,
          List.set_append_right _ _ (Nat.le_refl _), Nat.sub_self, hnew, append_assoc]
        exact ⟨rfl, fun hfalse => absurd hfalse Bool.true_eq_false.mp⟩

theorem mem_touchedBuildIdChunks {ranges : List (ℕ × ℕ)} {outputLen i : ℕ}
    (hchunks : touchedBuildIdChunks h ranges outputLen = .ok chunks) {range : ℕ × ℕ}
    (hrange : range ∈ ranges) (hi : range.1 ≤ i) (hi' : i < range.2) :
    i / h.groupLen 6 ∈ chunks := by
  obtain ⟨lists, hlists, hok⟩ := bind_eq_ok.1 hchunks
  cases hok
  obtain ⟨groups, hgroups, hvalue⟩ := (Text.Reader.mem_of_mapM hlists).1 range hrange
  refine mem_sortDedup.mpr (List.mem_flatten.mpr ⟨groups, hgroups, ?_⟩)
  unfold touchedRangeChunks at hvalue
  split at hvalue
  · cases hvalue
  · rw [if_neg (by omega)] at hvalue
    cases hvalue
    have hfirst : range.1 / h.groupLen 6 ≤ i / h.groupLen 6 := Nat.div_le_div_right hi
    have hlast : i / h.groupLen 6 ≤ (range.2 - 1) / h.groupLen 6 := Nat.div_le_div_right (by omega)
    exact List.mem_range'_1.mpr ⟨hfirst, by
      show i / h.groupLen 6 <
        range.1 / h.groupLen 6 + ((range.2 - 1) / h.groupLen 6 + 1 - range.1 / h.groupLen 6)
      omega⟩

variable {bytes : List UInt8} {state : BuildIdHashState}

theorem updateBuildIdHashTree_eq
    (htree : buildIdHashTree h bytes zeroRange = some tree) (hlength : output.length = bytes.length)
    (hcover : ∀ i, (cleared output zeroRange)[i]? ≠ (cleared bytes zeroRange)[i]? →
      i / h.groupLen 6 ∈ chunks)
    (hlen : state.outputLen = bytes.length) (hnodes : state.nodes = tree.length) :
    ∃ tree', buildIdHashTree h output zeroRange = some tree' ∧ tree'.length = tree.length ∧
      updateBuildIdHashTree h state tree output zeroRange chunks =
        some ({ state with treeHash := some (buildIdHashTreeHash h tree') }, tree') := by
  obtain ⟨hgroup, hcount⟩ := length_of_buildIdHashTree htree
  rw [← hlength] at hgroup hcount
  have hchunk := chunkLen_lt hgroup
  have hlt := leftSubtreeLen_lt hchunk
  have hpos := leftSubtreeLen_pos hchunk
  have hplaced := placed_zero (h := h) output.length
  have hplacedRight := placed_right hchunk hplaced
  rw [Nat.zero_add] at hplacedRight
  rw [buildIdHashTree_eq (hlength ▸ hgroup), ← hlength] at htree
  cases htree
  have hlength' : (cleared bytes zeroRange).length = output.length :=
    length_cleared.trans hlength.symm
  -- the left half is in front, and nothing comes after the right one
  have hleft : (updateBuildIdSubtreeHash h output zeroRange chunks
      (h.chainingValues 6 (cleared bytes zeroRange) 0 (h.leftSubtreeLen output.length) ++
        h.chainingValues 6 (cleared bytes zeroRange) (h.leftSubtreeLen output.length)
          (output.length - h.leftSubtreeLen output.length)) 0 0
      (h.leftSubtreeLen output.length)).2 =
      h.chainingValues 6 (cleared output zeroRange) 0 (h.leftSubtreeLen output.length) ++
        h.chainingValues 6 (cleared bytes zeroRange) (h.leftSubtreeLen output.length)
          (output.length - h.leftSubtreeLen output.length) :=
    (@updateBuildIdSubtreeHash_eq h output zeroRange chunks 0 _ 0 _ [] _ _ _ hpos (by omega)
      (placed_left hchunk hplaced) rfl hlength' hcover rfl rfl).1
  have hright : (updateBuildIdSubtreeHash h output zeroRange chunks
      (h.chainingValues 6 (cleared output zeroRange) 0 (h.leftSubtreeLen output.length) ++
        h.chainingValues 6 (cleared bytes zeroRange) (h.leftSubtreeLen output.length)
          (output.length - h.leftSubtreeLen output.length))
      (h.nodeCount 6 (h.leftSubtreeLen output.length)) (h.leftSubtreeLen output.length)
      (output.length - h.leftSubtreeLen output.length)).2 =
      h.chainingValues 6 (cleared output zeroRange) 0 (h.leftSubtreeLen output.length) ++
        h.chainingValues 6 (cleared output zeroRange) (h.leftSubtreeLen output.length)
          (output.length - h.leftSubtreeLen output.length) := by
    have hupdated := (@updateBuildIdSubtreeHash_eq h output zeroRange chunks _ _ _ _
      (h.chainingValues 6 (cleared output zeroRange) 0 (h.leftSubtreeLen output.length)) [] _ _
      (by omega) (by omega) hplacedRight rfl hlength' hcover (length_chainingValues hpos).symm
      (List.append_nil _).symm).1
    rwa [List.append_nil] at hupdated
  refine ⟨_, buildIdHashTree_eq hgroup, ?_, ?_⟩
  · rw [length_append, length_append, length_chainingValues hpos,
      length_chainingValues hpos, length_chainingValues (by omega),
      length_chainingValues (by omega)]
  · have hnodeCount : buildIdSubtreeNodeCount h (h.leftSubtreeLen output.length) =
        h.nodeCount 6 (h.leftSubtreeLen output.length) := rfl
    unfold updateBuildIdHashTree
    rw [if_neg]
    · dsimp only
      rw [hleft, hnodeCount, hright]
    · rw [hcount, hnodes]
      rintro (hne | hne | hne | hle)
      · exact hne (hlen.trans hlength.symm)
      · exact hne rfl
      · exact hne rfl
      · exact Nat.not_le.mpr hgroup hle

theorem buildIdFromHashTree_eq
    (htree : buildIdHashTree h bytes zeroRange = some tree) (hlen : state.outputLen = bytes.length)
    (hnodes : state.nodes = tree.length) :
    buildIdFromHashTree h state tree = .ok (h.root (cleared bytes zeroRange)) := by
  obtain ⟨hgroup, hcount⟩ := length_of_buildIdHashTree htree
  have hchunk := chunkLen_lt hgroup
  have hpos := leftSubtreeLen_pos hchunk
  have hnodeCount : buildIdSubtreeNodeCount h (h.leftSubtreeLen bytes.length) =
      h.nodeCount 6 (h.leftSubtreeLen bytes.length) := rfl
  rw [buildIdHashTree_eq hgroup] at htree
  obtain ⟨lefts, hlefts⟩ : ∃ rest, h.chainingValues 6 (cleared bytes zeroRange) 0
      (h.leftSubtreeLen bytes.length) = _ :: rest := chainingValues_head
  obtain ⟨rights, hrights⟩ : ∃ rest, h.chainingValues 6 (cleared bytes zeroRange)
      (h.leftSubtreeLen bytes.length) (bytes.length - h.leftSubtreeLen bytes.length) = _ :: rest :=
    chainingValues_head
  have hlength : (h.chainingValues 6 (cleared bytes zeroRange) 0
      (h.leftSubtreeLen bytes.length)).length = h.nodeCount 6 (h.leftSubtreeLen bytes.length) :=
    length_chainingValues hpos
  have hleft : tree[0]? =
      some (h.nonRoot (window (cleared bytes zeroRange) 0 (h.leftSubtreeLen bytes.length)) 0) := by
    rw [← Option.some.inj htree, hlefts]
    rfl
  have hright : tree[h.nodeCount 6 (h.leftSubtreeLen bytes.length)]? =
      some (h.nonRoot (window (cleared bytes zeroRange) (h.leftSubtreeLen bytes.length)
        (bytes.length - h.leftSubtreeLen bytes.length)) (h.leftSubtreeLen bytes.length)) := by
    rw [← Option.some.inj htree, List.getElem?_append_right hlength.le, hlength, Nat.sub_self, hrights]
    rfl
  unfold buildIdFromHashTree
  rw [hlen, hcount, if_neg (not_not.mpr (congrArg some hnodes)), if_neg (not_not.mpr hnodes.symm)]
  dsimp only
  rw [hnodeCount, hleft, hright]
  rw [root_eq (by rw [length_cleared]; exact hchunk), length_cleared]
  rfl

/-- **An update is a new link**: the tree of the old output becomes that of the
new one, if every byte that has changed, the note apart, is in a range, and
the build ID is the hash of the new output with the note cleared. -/
theorem updated_build_id {state : BuildIdHashState} {bytes : List UInt8} {ranges : List (ℕ × ℕ)}
    (htree : buildIdHashTree h bytes zeroRange = some tree) (hlength : output.length = bytes.length)
    (hranges : touchedBuildIdChunks h ranges output.length = .ok chunks)
    (hchanged : ∀ i, (cleared output zeroRange)[i]? ≠ (cleared bytes zeroRange)[i]? →
      ∃ range ∈ ranges, range.1 ≤ i ∧ i < range.2)
    (hlen : state.outputLen = bytes.length) (hnodes : state.nodes = tree.length) :
    ∃ state' tree', updateBuildIdHashTree h state tree output zeroRange chunks =
        some (state', tree') ∧
      buildIdHashTree h output zeroRange = some tree' ∧
      buildIdFromHashTree h state' tree' = .ok (h.root (cleared output zeroRange)) := by
  obtain ⟨tree', htree', hcount, hupd⟩ := updateBuildIdHashTree_eq htree hlength
    (fun i hi => by
      obtain ⟨range, hrange, hstart, hstop⟩ := hchanged i hi
      exact mem_touchedBuildIdChunks hranges hrange hstart hstop) hlen hnodes
  refine ⟨_, tree', hupd, htree', buildIdFromHashTree_eq htree' ?_ ?_⟩
  · exact hlen.trans hlength.symm
  · exact hnodes.trans hcount.symm

/-- Zeros, one more group than one of them fills, and the first byte changed. -/
theorem updated_build_id_of_one_byte :
    ∃ tree, buildIdHashTree Hash.Blake3.blake3 (List.replicate 65600 0) (64, 112) = some tree ∧
      ∃ state' tree', updateBuildIdHashTree Hash.Blake3.blake3 ⟨65600, tree.length, none⟩ tree
          ((List.replicate 65600 0).set 0 1) (64, 112) [0] = some (state', tree') ∧
        buildIdHashTree Hash.Blake3.blake3 ((List.replicate 65600 0).set 0 1) (64, 112) = some tree' ∧
        buildIdFromHashTree Hash.Blake3.blake3 state' tree' = .ok (Hash.Blake3.blake3.root
          (cleared ((List.replicate 65600 0).set 0 1) (64, 112))) := by
  have hzeros : (List.replicate 65600 (0 : UInt8)).length = 65600 := List.length_replicate
  have hlength : ((List.replicate 65600 (0 : UInt8)).set 0 1).length = 65600 := by
    rw [List.length_set, hzeros]
  have hgroup : Hash.Blake3.blake3.groupLen 6 < (List.replicate 65600 (0 : UInt8)).length := by
    rw [hzeros]
    show 1024 * 2 ^ 6 < 65600
    decide
  have hchunks : touchedBuildIdChunks Hash.Blake3.blake3 [(0, 1)]
      ((List.replicate 65600 (0 : UInt8)).set 0 1).length = .ok [0] := by
    rw [hlength]
    rfl
  refine ⟨_, buildIdHashTree_eq hgroup, updated_build_id (buildIdHashTree_eq hgroup)
    (hlength.trans hzeros.symm) hchunks (fun i hi => ?_) hzeros.symm rfl⟩
  refine ⟨(0, 1), List.mem_singleton.mpr rfl, Nat.zero_le i, ?_⟩
  by_contra hne
  refine hi ?_
  rw [getElem?_cleared, getElem?_cleared, List.getElem?_set_ne (by omega)]

end

/-! ## Writing the note -/

section

variable {output new : List UInt8} {range : ℕ × ℕ} {ranges : List (ℕ × ℕ)} {chunks : List ℕ}
  {tree : List Digest}

theorem cleared_splice (hlength : range.1 + new.length = range.2) (hin : range.2 ≤ output.length) :
    cleared (splice output range.1 new) range = cleared output range := by
  have hbound : range.1 + new.length ≤ output.length := by omega
  have hsplice : (splice output range.1 new).length = output.length := Store.length_splice hbound
  refine List.ext_getElem? fun i => ?_
  by_cases hi : range.1 ≤ i ∧ i < range.2
  · rw [getElem?_cleared_inside hi (by omega), getElem?_cleared_inside hi (by omega)]
  · rw [getElem?_cleared_outside hi, getElem?_cleared_outside hi]
    exact Store.getElem?_splice_outside hbound (by omega)

theorem buildIdHashTree_congr (hlength : new.length = output.length)
    (heq : cleared new range = cleared output range) (htree : buildIdHashTree h output range = some tree) :
    buildIdHashTree h new range = some tree := by
  obtain ⟨hgroup, -⟩ := length_of_buildIdHashTree htree
  rw [← htree, buildIdHashTree_eq hgroup, buildIdHashTree_eq (hlength ▸ hgroup), heq, hlength]

theorem exists_touchedBuildIdChunks {outputLen : ℕ}
    (hvalid : ∀ r ∈ ranges, r.1 ≤ r.2 ∧ r.2 ≤ outputLen) :
    ∃ chunks, touchedBuildIdChunks h ranges outputLen = .ok chunks := by
  obtain ⟨lists, hlists⟩ : ∃ lists, ranges.mapM (touchedRangeChunks h outputLen) = .ok lists := by
    refine Text.Reader.exists_mapM_eq_ok fun r hr => ?_
    obtain ⟨hle, hin⟩ := hvalid r hr
    unfold touchedRangeChunks
    rw [if_neg (by omega)]
    split
    · exact ⟨_, rfl⟩
    · exact ⟨_, rfl⟩
  exact ⟨_, bind_eq_ok.2 ⟨lists, hlists, rfl⟩⟩

theorem length_fastBuildIdNote (buildId : Digest) : (fastBuildIdNote buildId).length = 48 := by
  simp only [fastBuildIdNote, length_append, Vector.length_toList]
  rfl

/-- The ranges lie in the output, and nothing else has changed. -/
def Covers (ranges : List (ℕ × ℕ)) (bytes output : List UInt8) : Prop :=
  (∀ r ∈ ranges, r.1 ≤ r.2 ∧ r.2 ≤ output.length) ∧
    ∀ i, output[i]? ≠ bytes[i]? → ∃ r ∈ ranges, r.1 ≤ i ∧ i < r.2

/-- What is stored beside an output whose note holds its hash. -/
structure Stored (h : SubtreeHash Digest) (range : ℕ × ℕ) (bytes : List UInt8)
    (state : BuildIdHashState) (tree : List Digest) : Prop where
  inside : range.2 ≤ bytes.length
  note : range.1 + 48 = range.2
  hashed : buildIdHashTree h bytes range = some tree
  outputLen : state.outputLen = bytes.length
  nodes : state.nodes = tree.length
  treeHash : state.treeHash = some (buildIdHashTreeHash h tree)
  written : window bytes range.1 48 = fastBuildIdNote (h.root (cleared bytes range))

theorem note_of_validate (h : validateFastBuildIdRange range = .ok ()) :
    range.1 + 48 = range.2 := by
  unfold validateFastBuildIdRange at h
  split at h
  · cases h
  · rename_i hlen
    have : range.2 - range.1 = 48 := not_not.mp hlen
    omega

theorem validate_of_note (hnote : range.1 + 48 = range.2) :
    validateFastBuildIdRange range = .ok () := by
  unfold validateFastBuildIdRange
  rw [if_neg (by
    show ¬ range.2 - range.1 ≠ 12 + 4 + 32
    omega)]
  rfl

theorem Stored.splice {state : BuildIdHashState} {buildId : Digest}
    (htree : buildIdHashTree h output range = some tree) (hnote : range.1 + 48 = range.2)
    (hin : range.2 ≤ output.length) (hlen : state.outputLen = output.length)
    (hnodes : state.nodes = tree.length)
    (hhash : state.treeHash = some (buildIdHashTreeHash h tree))
    (hbuildId : buildIdFromHashTree h state tree = .ok buildId) :
    Stored h range (splice output range.1 (fastBuildIdNote buildId)) state tree := by
  obtain rfl := Except.ok.inj ((buildIdFromHashTree_eq htree hlen hnodes).symm.trans hbuildId)
  have hbytes : range.1 + (fastBuildIdNote (h.root (cleared output range))).length = range.2 := by
    rw [length_fastBuildIdNote, hnote]
  have hlength : (Store.splice output range.1
      (fastBuildIdNote (h.root (cleared output range)))).length = output.length :=
    Store.length_splice (by omega)
  have hcleared := cleared_splice hbytes hin
  refine ⟨hlength ▸ hin, hnote, buildIdHashTree_congr hlength hcleared htree,
    hlen.trans hlength.symm, hnodes, hhash, ?_⟩
  rw [hcleared, ← length_fastBuildIdNote (h.root (cleared output range))]
  exact Store.window_splice (by omega)

theorem Stored.patch {state : BuildIdHashState} {bytes : List UInt8}
    (hstored : Stored h range bytes state tree) (hlength : output.length = bytes.length)
    (hcovers : Covers ranges bytes output) :
    ∃ output' state' tree', writeFastBuildIdFromState h output range state tree ranges =
        .ok (output', state', tree') ∧ Stored h range output' state' tree' := by
  obtain ⟨hin, hnote, htree, hlen, hnodes, -, -⟩ := hstored
  rw [← hlength] at hin
  have hzeros : range.1 + (List.replicate (range.2 - range.1) (0 : UInt8)).length = range.2 := by
    rw [length_replicate]
    omega
  have hfilled : (fillZero output range).length = output.length := Store.length_splice (by omega)
  have hsame : cleared (fillZero output range) range = cleared output range :=
    cleared_splice hzeros hin
  obtain ⟨chunks, hchunks⟩ : ∃ chunks,
      touchedBuildIdChunks h (ranges ++ [range]) (fillZero output range).length = .ok chunks := by
    refine exists_touchedBuildIdChunks fun r hr => ?_
    rw [hfilled]
    rcases List.mem_append.mp hr with hr | hr
    · exact hcovers.1 r hr
    · rw [List.mem_singleton.mp hr]
      exact ⟨by omega, hin⟩
  obtain ⟨tree', htree', hcount, hupd⟩ := updateBuildIdHashTree_eq htree
    (hfilled.trans hlength) (fun i hi => by
      obtain ⟨r, hr, hstart, hstop⟩ := hcovers.2 i fun heq => hi (by
        rw [hsame, getElem?_cleared, getElem?_cleared, heq])
      exact mem_touchedBuildIdChunks hchunks (List.mem_append_left _ hr) hstart hstop) hlen hnodes
  have houtputLen : state.outputLen = (fillZero output range).length :=
    hlen.trans (hlength.symm.trans hfilled.symm)
  have hnodes' : state.nodes = tree'.length := hnodes.trans hcount.symm
  have hbuildId : buildIdFromHashTree h { state with treeHash := some (buildIdHashTreeHash h tree') }
      tree' = .ok _ := buildIdFromHashTree_eq htree' houtputLen hnodes'
  refine ⟨_, { state with treeHash := some (buildIdHashTreeHash h tree') }, tree', ?_,
    .splice htree' hnote (hfilled.symm ▸ hin) houtputLen hnodes' rfl hbuildId⟩
  unfold writeFastBuildIdFromState
  rw [validate_of_note hnote, ok_bind]
  dsimp only
  rw [hchunks, ok_bind, hupd]
  dsimp only
  rw [hbuildId]
  rfl

theorem Stored.read {state : BuildIdHashState} {bytes : List UInt8}
    (hstored : Stored h range bytes state tree) : readBuildIdHashTree h state tree = .ok tree := by
  obtain ⟨-, hcount⟩ := length_of_buildIdHashTree hstored.hashed
  unfold readBuildIdHashTree
  rw [hstored.outputLen, hcount, hstored.nodes, hstored.treeHash, if_neg fun hne => hne rfl,
    if_neg fun hne => hne rfl, if_neg (by simp)]
  rfl

/-- The outputs of one link and of the patches after it, with what is stored for the next. -/
inductive Run (h : SubtreeHash Digest) (range : ℕ × ℕ) :
    List UInt8 → BuildIdHashState → List Digest → Prop
  /-- `write_gnu_build_id_note`; the note is in the file. -/
  | link {output : List UInt8} {buildId : Digest} {state : BuildIdHashState} {tree : List Digest} :
      range.2 ≤ output.length → computeFastBuildId h output range = .ok (some (buildId, state, tree)) →
      Run h range (splice output range.1 (fastBuildIdNote buildId)) state tree
  | patch {bytes output output' : List UInt8} {state state' : BuildIdHashState}
      {stored tree tree' : List Digest} {ranges : List (ℕ × ℕ)} : Run h range bytes state stored →
      readBuildIdHashTree h state stored = .ok tree → output.length = bytes.length →
      Covers ranges bytes output →
      writeFastBuildIdFromState h output range state tree ranges = .ok (output', state', tree') →
      Run h range output' state' tree'

theorem stored_of_run {state : BuildIdHashState} {bytes : List UInt8}
    (hrun : Run h range bytes state tree) : Stored h range bytes state tree := by
  induction hrun with
  | link hin hcompute =>
    obtain ⟨⟨⟩, hvalid, hcompute⟩ := bind_eq_ok.mp hcompute
    split at hcompute
    · cases hcompute
    · rename_i tree htree
      obtain ⟨buildId, hbuildId, hcompute⟩ := bind_eq_ok.mp hcompute
      cases hcompute
      exact .splice htree (note_of_validate hvalid) hin rfl rfl rfl hbuildId
  | patch _ hread hlength hcovers hwrite ih =>
    obtain rfl := Except.ok.inj (ih.read.symm.trans hread)
    obtain ⟨output', state', tree', hok, hstored⟩ := ih.patch hlength hcovers
    cases hok.symm.trans hwrite
    exact hstored

/-- **A history of an output**: after a link and any number of patches, the note
holds the hash of the output with the note cleared, the stored tree is accepted,
and the next patch gets its build ID as well. -/
theorem fast_build_id_of_run {state : BuildIdHashState} {bytes : List UInt8}
    (hrun : Run h range bytes state tree) :
    window bytes range.1 48 = fastBuildIdNote (h.root (cleared bytes range)) ∧
      readBuildIdHashTree h state tree = .ok tree ∧
      ∀ output ranges, output.length = bytes.length → Covers ranges bytes output →
        ∃ result, writeFastBuildIdFromState h output range state tree ranges = .ok result := by
  have hstored := stored_of_run hrun
  refine ⟨hstored.written, hstored.read, fun output ranges hlength hcovers => ?_⟩
  obtain ⟨output', state', tree', hok, -⟩ := hstored.patch hlength hcovers
  exact ⟨_, hok⟩

theorem computeFastBuildId_eq (htree : buildIdHashTree h output range = some tree)
    (hnote : range.1 + 48 = range.2) :
    computeFastBuildId h output range = .ok (some (h.root (cleared output range),
      ⟨output.length, tree.length, some (buildIdHashTreeHash h tree)⟩, tree)) := by
  unfold computeFastBuildId
  rw [validate_of_note hnote, ok_bind, htree]
  dsimp only
  rw [buildIdFromHashTree_eq htree rfl rfl, ok_bind]
  rfl

theorem covers_set {bytes : List UInt8} {i : ℕ} (hi : i < bytes.length) (b : UInt8) :
    Covers [(i, i + 1)] bytes (bytes.set i b) := by
  refine ⟨by simp; omega, fun j hj => ⟨_, List.mem_singleton_self _, ?_⟩⟩
  by_contra hne
  exact hj (List.getElem?_set_ne (by omega))

/-- A link of zeros, and a patch of the first byte. -/
theorem fast_build_id_of_zeros : ∃ bytes state tree,
    window bytes 64 48 = fastBuildIdNote (Hash.Blake3.blake3.root (cleared bytes (64, 112))) ∧
      readBuildIdHashTree Hash.Blake3.blake3 state tree = .ok tree ∧
      ∀ output ranges, output.length = bytes.length → Covers ranges bytes output →
        ∃ result, writeFastBuildIdFromState Hash.Blake3.blake3 output (64, 112) state tree ranges =
          .ok result := by
  have hlength : (List.replicate 65600 (0 : UInt8)).length = 65600 := length_replicate
  have htree := @buildIdHashTree_eq Hash.Blake3.blake3 (List.replicate 65600 0) (64, 112) (by
    rw [hlength]
    show 1024 * 2 ^ 6 < 65600
    decide)
  have hlink := Run.link (by rw [hlength]; decide) (computeFastBuildId_eq htree rfl)
  have hstored := stored_of_run hlink
  have hcovers := covers_set (Nat.lt_of_lt_of_le (by decide : 0 < 112) hstored.inside) 1
  obtain ⟨output, state, tree, hwrite, -⟩ := hstored.patch List.length_set hcovers
  exact ⟨output, state, tree,
    fast_build_id_of_run (.patch hlink hstored.read List.length_set hcovers hwrite)⟩

end

end Sld.Incremental.BuildId
