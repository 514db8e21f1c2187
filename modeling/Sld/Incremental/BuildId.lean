/-
# `Incremental.BuildId` — the build ID of a patched output

The build ID of a fast link is the BLAKE3 hash of the output with the note
that holds it cleared.  The state keeps the chaining values of the hash
tree down to groups of 64 chunks, in pre-order, except for the root.  After
an update only groups that a patch touches are hashed again, and the values
over them are merged again, in place.

The hash is a parameter; what is used of it are the merge laws of its
subtrees (`SubtreeHash`).
-/
import Sld.Hash.Subtrees
import Sld.Order.SortDedup
import Sld.Text.Hex
import Sld.Text.Reader

namespace Sld.Incremental.BuildId

open Hash (SubtreeHash divCeil)
open Hash.SubtreeHash
open Store (window splice)
open Text (hexEncode)

/-! ## Hash trees -/

/-- `[u8; OUT_LEN]` -/
abbrev Digest := Vector UInt8 32

structure BuildIdHashState where
  outputLen : ℕ
  nodes : ℕ
  treeHash : Option Text

variable (h : SubtreeHash Digest)

def buildIdHashGroupChunks : ℕ := 64

def buildIdHashGroupLen : ℕ := h.chunkLen * buildIdHashGroupChunks

def intersectRanges (left right : ℕ × ℕ) : Option (ℕ × ℕ) :=
  let start := max left.1 right.1
  let stop := min left.2 right.2
  if start < stop then some (start, stop) else none

def buildIdLeafHashBytes (bytes : List UInt8) (start : ℕ) : Digest := h.nonRoot bytes start

def buildIdLeafHash (bytes : List UInt8) (start len : ℕ) (zeroRange : ℕ × ℕ) : Digest :=
  let chunk := window bytes start len
  match intersectRanges (start, start + len) zeroRange with
  | some overlap =>
    buildIdLeafHashBytes h (splice chunk (overlap.1 - start)
      (List.replicate (overlap.2 - overlap.1) 0)) start
  | none => buildIdLeafHashBytes h chunk start

def buildIdSubtreeNodeCount (len : ℕ) : ℕ := 2 * divCeil len (buildIdHashGroupLen h) - 1

def buildIdHashNodeCount (len : ℕ) : Option ℕ :=
  if len ≤ buildIdHashGroupLen h then none
  else
    let leftLen := h.leftSubtreeLen len
    some (buildIdSubtreeNodeCount h leftLen + buildIdSubtreeNodeCount h (len - leftLen))

variable {h} in
theorem chunkLen_lt_of_groupLen_lt {len : ℕ} (hlen : ¬ len ≤ buildIdHashGroupLen h) :
    h.chunkLen < len :=
  chunkLen_lt (m := 6) (Nat.not_le.mp hlen)

/-- `build_id_subtree_hash`: the value of a subtree, and the slice of the tree after it
has been written. -/
def buildIdSubtreeHash (bytes : List UInt8) (zeroRange : ℕ × ℕ) (start len : ℕ)
    (tree : List Digest) : Digest × List Digest :=
  if _ : len ≤ buildIdHashGroupLen h then
    let hash := buildIdLeafHash h bytes start len zeroRange
    (hash, tree.set 0 hash)
  else
    let leftLen := h.leftSubtreeLen len
    let leftNodes := buildIdSubtreeNodeCount h leftLen
    let children := tree.drop 1
    let left := buildIdSubtreeHash bytes zeroRange start leftLen (children.take leftNodes)
    let right := buildIdSubtreeHash bytes zeroRange (start + leftLen) (len - leftLen)
      (children.drop leftNodes)
    let hash := h.mergeNonRoot left.1 right.1
    (hash, hash :: (left.2 ++ right.2))
termination_by len
decreasing_by
  · exact leftSubtreeLen_lt (chunkLen_lt_of_groupLen_lt ‹_›)
  · exact Nat.sub_lt (Nat.zero_lt_of_lt (Nat.not_le.mp ‹_›))
      (leftSubtreeLen_pos (chunkLen_lt_of_groupLen_lt ‹_›))

def buildIdHashTree (bytes : List UInt8) (zeroRange : ℕ × ℕ) : Option (List Digest) := do
  let nodes ← buildIdHashNodeCount h bytes.length
  let tree := List.replicate nodes (Vector.replicate 32 0)
  let leftLen := h.leftSubtreeLen bytes.length
  let leftNodes := buildIdSubtreeNodeCount h leftLen
  let left := buildIdSubtreeHash h bytes zeroRange 0 leftLen (tree.take leftNodes)
  let right := buildIdSubtreeHash h bytes zeroRange leftLen (bytes.length - leftLen)
    (tree.drop leftNodes)
  pure (left.2 ++ right.2)

def buildIdHashTreeHash (tree : List Digest) : Text :=
  hexEncode (h.root (tree.flatMap Vector.toList)).toList

/-! ## Updates -/

/-- The groups of one range of `touched_build_id_chunks`. -/
def touchedRangeChunks (outputLen : ℕ) (range : ℕ × ℕ) : Except String (List ℕ) :=
  if range.2 < range.1 ∨ outputLen < range.2 then
    throw "Incremental build ID patch range is invalid"
  else if range.2 ≤ range.1 then pure []
  else
    let first := range.1 / buildIdHashGroupLen h
    let last := (range.2 - 1) / buildIdHashGroupLen h
    pure (List.range' first (last + 1 - first))

def touchedBuildIdChunks (ranges : List (ℕ × ℕ)) (outputLen : ℕ) : Except String (List ℕ) := do
  let chunks ← ranges.mapM (touchedRangeChunks h outputLen)
  pure (sortDedup chunks.flatten)

def touchedChunksOverlap (chunks : List ℕ) (start len : ℕ) : Bool :=
  if len = 0 then false
  else
    let first := start / buildIdHashGroupLen h
    let last := (start + len - 1) / buildIdHashGroupLen h
    chunks.any fun chunk => first ≤ chunk && chunk ≤ last

/-- `tree[index] = merge_subtrees_non_root(&tree[left_index], &tree[right_index])`; all
three are in the tree. -/
def mergeAt (tree : List Digest) (index leftIndex rightIndex : ℕ) : List Digest :=
  match tree[leftIndex]?, tree[rightIndex]? with
  | some left, some right => tree.set index (h.mergeNonRoot left right)
  | _, _ => tree

/-- `update_build_id_subtree_hash`: whether the subtree was hashed again, and the tree. -/
def updateBuildIdSubtreeHash (output : List UInt8) (zeroRange : ℕ × ℕ) (changedChunks : List ℕ)
    (tree : List Digest) (index start len : ℕ) : Bool × List Digest :=
  if ¬ touchedChunksOverlap h changedChunks start len then (false, tree)
  else if _ : len ≤ buildIdHashGroupLen h then
    (true, tree.set index (buildIdLeafHash h output start len zeroRange))
  else
    let leftLen := h.leftSubtreeLen len
    let leftIndex := index + 1
    let rightIndex := leftIndex + buildIdSubtreeNodeCount h leftLen
    let left := updateBuildIdSubtreeHash output zeroRange changedChunks tree leftIndex start leftLen
    let right := updateBuildIdSubtreeHash output zeroRange changedChunks left.2 rightIndex
      (start + leftLen) (len - leftLen)
    if left.1 || right.1 then (true, mergeAt h right.2 index leftIndex rightIndex)
    else (false, right.2)
termination_by len
decreasing_by
  · exact leftSubtreeLen_lt (chunkLen_lt_of_groupLen_lt ‹_›)
  · exact Nat.sub_lt (Nat.zero_lt_of_lt (Nat.not_le.mp ‹_›))
      (leftSubtreeLen_pos (chunkLen_lt_of_groupLen_lt ‹_›))

/-- `update_build_id_hash_tree`; nothing is written if the state does not fit. -/
def updateBuildIdHashTree (state : BuildIdHashState) (tree : List Digest) (output : List UInt8)
    (zeroRange : ℕ × ℕ) (changedChunks : List ℕ) : Option (BuildIdHashState × List Digest) :=
  if state.outputLen ≠ output.length ∨ some state.nodes ≠ buildIdHashNodeCount h output.length
      ∨ tree.length ≠ state.nodes ∨ output.length ≤ buildIdHashGroupLen h then none
  else
    let leftLen := h.leftSubtreeLen output.length
    let left := updateBuildIdSubtreeHash h output zeroRange changedChunks tree 0 0 leftLen
    let rightIndex := buildIdSubtreeNodeCount h leftLen
    let right := updateBuildIdSubtreeHash h output zeroRange changedChunks left.2 rightIndex leftLen
      (output.length - leftLen)
    some ({ state with treeHash := some (buildIdHashTreeHash h right.2) }, right.2)

def buildIdFromHashTree (state : BuildIdHashState) (tree : List Digest) : Except String Digest :=
  if some state.nodes ≠ buildIdHashNodeCount h state.outputLen then
    throw "Incremental build ID hash state does not match output length"
  else if tree.length ≠ state.nodes then
    throw "Incremental build ID hash tree size does not match state"
  else
    let leftLen := h.leftSubtreeLen state.outputLen
    match tree[0]?, tree[buildIdSubtreeNodeCount h leftLen]? with
    | some left, some right => pure (h.mergeRoot left right)
    -- a panic, which the size of the tree rules out
    | _, _ => throw "index out of bounds"

/-- `read_build_id_hash_tree`, from what is stored -/
def readBuildIdHashTree (state : BuildIdHashState) (tree : List Digest) :
    Except String (List Digest) :=
  if some state.nodes ≠ buildIdHashNodeCount h state.outputLen then
    throw "Incremental build ID hash state does not match output length"
  else if tree.length ≠ state.nodes then
    throw s!"Incremental build ID hash tree has {32 * tree.length} bytes, expected {32 * state.nodes}"
  else if state.treeHash.any (buildIdHashTreeHash h tree ≠ ·) then
    throw "Incremental build ID hash tree does not match its recorded hash"
  else pure tree

/-! ## The note -/

/-- The output with a range of it filled with zeros. -/
def fillZero (output : List UInt8) (range : ℕ × ℕ) : List UInt8 :=
  splice output range.1 (List.replicate (range.2 - range.1) 0)

def gnuNoteName : List UInt8 := [71, 78, 85, 0]

/-- The bytes of the note: the sizes of name and ID, `NT_GNU_BUILD_ID`, name, ID. -/
def fastBuildIdNote (buildId : Digest) : List UInt8 :=
  [4, 0, 0, 0] ++ [32, 0, 0, 0] ++ [3, 0, 0, 0] ++ gnuNoteName ++ buildId.toList

def validateFastBuildIdRange (range : ℕ × ℕ) : Except String Unit :=
  if range.2 - range.1 ≠ 12 + gnuNoteName.length + 32 then
    throw "Incremental patching only supports fast 32-byte build IDs"
  else pure ()

/-- `compute_fast_build_id_and_prepare_state`, for an output with a note -/
def computeFastBuildId (output : List UInt8) (range : ℕ × ℕ) :
    Except String (Option (Digest × BuildIdHashState × List Digest)) := do
  validateFastBuildIdRange range
  match buildIdHashTree h output range with
  | none => pure none
  | some tree =>
    let state : BuildIdHashState :=
      ⟨output.length, tree.length, some (buildIdHashTreeHash h tree)⟩
    let buildId ← buildIdFromHashTree h state tree
    pure (some (buildId, state, tree))

def writeFastBuildIdFromState (output : List UInt8) (range : ℕ × ℕ) (state : BuildIdHashState)
    (tree : List Digest) (changedRanges : List (ℕ × ℕ)) :
    Except String (List UInt8 × BuildIdHashState × List Digest) := do
  validateFastBuildIdRange range
  let output := fillZero output range
  let changedChunks ← touchedBuildIdChunks h (changedRanges ++ [range]) output.length
  match updateBuildIdHashTree h state tree output range changedChunks with
  | none => throw "Incremental build ID hash state is incompatible with the output"
  | some (state, tree) =>
    let buildId ← buildIdFromHashTree h state tree
    pure (splice output range.1 (fastBuildIdNote buildId), state, tree)

end Sld.Incremental.BuildId
