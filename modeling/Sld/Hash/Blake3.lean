/-
# `Hash.Blake3` — BLAKE3 as a hash of subtrees

An input is cut into chunks of 1024 bytes and a chunk into blocks of 64.  A
chunk's chaining value is compressed block by block, from the initial value
and with the number of the chunk as counter; the value of a larger subtree
is that of a block with the values of its halves.  The last compression of
an input is marked as its root.  Both merge laws hold by definition, so this
is an instance of `SubtreeHash` (`blake3`).
-/
import Sld.Hash.Subtrees

namespace Sld.Hash.Blake3

/-! ## Compression -/

abbrev iv : Vector UInt32 8 :=
  #v[0x6a09e667, 0xbb67ae85, 0x3c6ef372, 0xa54ff53a, 0x510e527f, 0x9b05688c, 0x1f83d9ab, 0x5be0cd19]

def msgPermutation : Vector ℕ 16 := #v[2, 6, 3, 10, 7, 0, 4, 13, 1, 11, 12, 5, 9, 14, 15, 8]

def chunkStart : UInt32 := 1
def chunkEnd : UInt32 := 2
def parentFlag : UInt32 := 4
def rootFlag : UInt32 := 8

def rotateRight (word count : UInt32) : UInt32 := word >>> count ||| word <<< (32 - count)

/-- The mixing of a column or a diagonal, with two words of the block. -/
def g (state : Vector UInt32 16) (a b c d : Fin 16) (x y : UInt32) : Vector UInt32 16 :=
  let state := state.set a (state[a] + state[b] + x)
  let state := state.set d (rotateRight (state[d] ^^^ state[a]) 16)
  let state := state.set c (state[c] + state[d])
  let state := state.set b (rotateRight (state[b] ^^^ state[c]) 12)
  let state := state.set a (state[a] + state[b] + y)
  let state := state.set d (rotateRight (state[d] ^^^ state[a]) 8)
  let state := state.set c (state[c] + state[d])
  state.set b (rotateRight (state[b] ^^^ state[c]) 7)

def round (state m : Vector UInt32 16) : Vector UInt32 16 :=
  let state := g state 0 4 8 12 m[0] m[1]
  let state := g state 1 5 9 13 m[2] m[3]
  let state := g state 2 6 10 14 m[4] m[5]
  let state := g state 3 7 11 15 m[6] m[7]
  let state := g state 0 5 10 15 m[8] m[9]
  let state := g state 1 6 11 12 m[10] m[11]
  let state := g state 2 7 8 13 m[12] m[13]
  g state 3 4 9 14 m[14] m[15]

/-- Some rounds, each with the words of the block in another order. -/
def rounds : ℕ → Vector UInt32 16 → Vector UInt32 16 → Vector UInt32 16
  | 0, state, _ => state
  | n + 1, state, m => rounds n (round state m) (msgPermutation.map fun i => m[i]!)

/-- The words of a block, which may be short. -/
def blockWords (bytes : List UInt8) : Vector UInt32 16 :=
  Vector.ofFn fun i => (List.range 4).foldr
    (fun k word => word <<< 8 ||| (bytes[4 * i.val + k]?.getD 0).toUInt32) 0

def digestBytes (words : Vector UInt32 8) : Vector UInt8 32 :=
  Vector.ofFn fun i => (words[i.val / 4] >>> (8 * UInt32.ofNat (i.val % 4))).toUInt8

/-- The first half of the output of the compression function. -/
def compress (cv : Vector UInt32 8) (block : List UInt8) (counter : ℕ) (flags : UInt32) :
    Vector UInt32 8 :=
  let state := rounds 7
    #v[cv[0], cv[1], cv[2], cv[3], cv[4], cv[5], cv[6], cv[7], iv[0], iv[1], iv[2], iv[3],
      UInt32.ofNat counter, UInt32.ofNat (counter / 2 ^ 32), UInt32.ofNat block.length, flags]
    (blockWords block)
  Vector.ofFn fun i => state[i.val] ^^^ state[i.val + 8]

/-! ## Chunks and subtrees -/

/-- The value of a chunk from one of its blocks on, which some blocks follow. -/
def chunkFrom (counter : ℕ) (last : UInt32) : ℕ → UInt32 → Vector UInt32 8 → List UInt8 →
    Vector UInt32 8
  | 0, first, cv, bytes => compress cv bytes counter (first ||| chunkEnd ||| last)
  | blocks + 1, first, cv, bytes =>
    chunkFrom counter last blocks 0 (compress cv (bytes.take 64) counter first) (bytes.drop 64)

def chunk (bytes : List UInt8) (offset : ℕ) (last : UInt32) : Vector UInt8 32 :=
  digestBytes (chunkFrom (offset / 1024) last ((bytes.length - 1) / 64) chunkStart iv bytes)

def parent (last : UInt32) (left right : Vector UInt8 32) : Vector UInt8 32 :=
  digestBytes (compress iv (left.toList ++ right.toList) 0 (parentFlag ||| last))

/-- The largest power of two that is less than a length. -/
def leftSubtreeLen (len : ℕ) : ℕ := 2 ^ (len - 1).log2

theorem leftSubtreeLen_spec {len : ℕ} (hlen : 1024 < len) : ∃ k, leftSubtreeLen len = 1024 * 2 ^ k ∧
    leftSubtreeLen len < len ∧ len ≤ 2 * leftSubtreeLen len := by
  have hlow : 2 ^ (len - 1).log2 ≤ len - 1 := Nat.log2_self_le (by omega)
  have hhigh : len - 1 < 2 ^ ((len - 1).log2 + 1) := Nat.lt_log2_self
  have hexponent : 10 ≤ (len - 1).log2 := (Nat.le_log2 (by omega)).mpr (by omega)
  refine ⟨(len - 1).log2 - 10, ?_, ?_, ?_⟩
  · show 2 ^ (len - 1).log2 = 2 ^ 10 * _
    rw [← Nat.pow_add, Nat.add_sub_cancel' hexponent]
  · show 2 ^ (len - 1).log2 < len
    omega
  · show len ≤ 2 * 2 ^ (len - 1).log2
    omega

/-- The chaining value of a subtree that starts at an offset. -/
def nonRoot (bytes : List UInt8) (offset : ℕ) : Vector UInt8 32 :=
  if _ : bytes.length ≤ 1024 then chunk bytes offset 0
  else
    parent 0 (nonRoot (bytes.take (leftSubtreeLen bytes.length)) offset)
      (nonRoot (bytes.drop (leftSubtreeLen bytes.length)) (offset + leftSubtreeLen bytes.length))
termination_by bytes.length
decreasing_by
  all_goals
    obtain ⟨k, -, hlt, hle⟩ := leftSubtreeLen_spec (Nat.not_le.mp ‹_›)
    first
      | rw [List.length_take]
      | rw [List.length_drop]
    omega

def root (bytes : List UInt8) : Vector UInt8 32 :=
  if bytes.length ≤ 1024 then chunk bytes 0 rootFlag
  else
    parent rootFlag (nonRoot (bytes.take (leftSubtreeLen bytes.length)) 0)
      (nonRoot (bytes.drop (leftSubtreeLen bytes.length)) (leftSubtreeLen bytes.length))

/-- BLAKE3 -/
def blake3 : SubtreeHash (Vector UInt8 32) where
  chunkLen := 1024
  leftSubtreeLen := leftSubtreeLen
  nonRoot := nonRoot
  root := root
  mergeNonRoot := parent 0
  mergeRoot := parent rootFlag
  chunkLen_pos := Nat.zero_lt_succ _
  leftSubtreeLen_spec _ hlen := leftSubtreeLen_spec hlen
  nonRoot_merge bytes offset hlen _ := by
    rw [nonRoot, dif_neg (Nat.not_le.mpr hlen)]
  root_merge bytes hlen := by
    rw [root, if_neg (Nat.not_le.mpr hlen)]

-- the hash of the empty input
example : (root []).toList = [0xaf, 0x13, 0x49, 0xb9, 0xf5, 0xf9, 0xa1, 0xa6, 0xa0, 0x40, 0x4d, 0xea,
    0x36, 0xdc, 0xc9, 0x49, 0x9b, 0xcb, 0x25, 0xc9, 0xad, 0xc1, 0x12, 0xb7, 0xcc, 0x9a, 0x93, 0xca,
    0xe4, 0x1f, 0x32, 0x62] := by
  decide +kernel

end Sld.Hash.Blake3
