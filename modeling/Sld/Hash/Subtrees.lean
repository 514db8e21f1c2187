/-
# `Hash.Subtrees` — hashing in subtrees

A tree hash cuts its input into chunks and builds a binary tree over them:
the left subtree of an input longer than a chunk is the largest one that is
complete and not everything.  A subtree has a chaining value, which depends
on its bytes and on where it starts; values are merged on the way up, and
at the root in a way of its own.  `SubtreeHash` is what one can rely on.

A caller may keep the values of all subtrees down to groups of `2 ^ m`
chunks, in pre-order (`chainingValues`).  How many they are depends on the
length only (`length_chainingValues`), and each on its own bytes only
(`chainingValues_congr`).
-/
import Mathlib.Algebra.Order.Group.Nat
import Mathlib.Algebra.Ring.Nat
import Sld.Store.Patches

namespace Sld.Hash

open Store (window)

/-- A subtree may start at `offset` and have `len` bytes. -/
def Placed (chunkLen offset len : ℕ) : Prop := ∃ k, chunkLen * 2 ^ k ∣ offset ∧ len ≤ chunkLen * 2 ^ k

/-- A hash whose subtrees can be hashed on their own; `δ` are its digests. -/
structure SubtreeHash (δ : Type) where
  chunkLen : ℕ
  /-- How long the left subtree of an input of some length is. -/
  leftSubtreeLen : ℕ → ℕ
  /-- The chaining value of a subtree that starts at an offset. -/
  nonRoot : List UInt8 → ℕ → δ
  /-- The hash of an input. -/
  root : List UInt8 → δ
  mergeNonRoot : δ → δ → δ
  mergeRoot : δ → δ → δ
  chunkLen_pos : 0 < chunkLen
  leftSubtreeLen_spec : ∀ len, chunkLen < len → ∃ k, leftSubtreeLen len = chunkLen * 2 ^ k ∧
    leftSubtreeLen len < len ∧ len ≤ 2 * leftSubtreeLen len
  nonRoot_merge : ∀ (bytes : List UInt8) (offset : ℕ), chunkLen < bytes.length →
    Placed chunkLen offset bytes.length →
    nonRoot bytes offset = mergeNonRoot (nonRoot (bytes.take (leftSubtreeLen bytes.length)) offset)
      (nonRoot (bytes.drop (leftSubtreeLen bytes.length))
        (offset + leftSubtreeLen bytes.length))
  root_merge : ∀ bytes : List UInt8, chunkLen < bytes.length →
    root bytes = mergeRoot (nonRoot (bytes.take (leftSubtreeLen bytes.length)) 0)
      (nonRoot (bytes.drop (leftSubtreeLen bytes.length)) (leftSubtreeLen bytes.length))

def divCeil (n d : ℕ) : ℕ := (n + d - 1) / d

theorem divCeil_pos {n d : ℕ} (hn : 0 < n) (hd : 0 < d) : 0 < divCeil n d :=
  Nat.div_pos (by omega) hd

theorem divCeil_mul {d : ℕ} (hd : 0 < d) (q : ℕ) : divCeil (d * q) d = q := by
  have hsum : d * q + d - 1 = d - 1 + d * q := by omega
  rw [divCeil, hsum, Nat.add_mul_div_left _ _ hd, Nat.div_eq_of_lt (by omega), Nat.zero_add]

theorem divCeil_mul_add {d : ℕ} (hd : 0 < d) (q n : ℕ) :
    divCeil (d * q + n) d = q + divCeil n d := by
  have hsum : d * q + n + d - 1 = n + d - 1 + d * q := by omega
  rw [divCeil, hsum, Nat.add_mul_div_left _ _ hd, divCeil, Nat.add_comm]

namespace SubtreeHash

variable {δ : Type} (h : SubtreeHash δ) (m : ℕ)

/-- The length of a group of chunks. -/
def groupLen : ℕ := h.chunkLen * 2 ^ m

theorem groupLen_pos : 0 < h.groupLen m := Nat.mul_pos h.chunkLen_pos (Nat.two_pow_pos m)

variable {h m} {len offset : ℕ}

theorem chunkLen_lt (hlen : h.groupLen m < len) : h.chunkLen < len :=
  (Nat.le_mul_of_pos_right _ (Nat.two_pow_pos m)).trans_lt hlen

theorem leftSubtreeLen_lt (hlen : h.chunkLen < len) : h.leftSubtreeLen len < len := by
  obtain ⟨k, -, hlt, -⟩ := h.leftSubtreeLen_spec len hlen
  exact hlt

theorem leftSubtreeLen_pos (hlen : h.chunkLen < len) : 0 < h.leftSubtreeLen len := by
  obtain ⟨k, hk, -, -⟩ := h.leftSubtreeLen_spec len hlen
  rw [hk]
  exact Nat.mul_pos h.chunkLen_pos (Nat.two_pow_pos k)

theorem groupLen_dvd_leftSubtreeLen (hlen : h.groupLen m < len) :
    h.groupLen m ∣ h.leftSubtreeLen len := by
  obtain ⟨k, hk, -, hle⟩ := h.leftSubtreeLen_spec len (chunkLen_lt hlen)
  rw [hk]
  refine Nat.mul_dvd_mul_left _ (Nat.pow_dvd_pow 2 (Nat.not_lt.mp fun hlt => ?_))
  -- otherwise everything would be as long as a group
  have hpow : 2 * 2 ^ k ≤ 2 ^ m := by
    rw [← Nat.pow_succ']
    exact Nat.pow_le_pow_right (by omega) hlt
  have hgroup : h.chunkLen * (2 * 2 ^ k) ≤ h.chunkLen * 2 ^ m := Nat.mul_le_mul_left _ hpow
  have hcomm : h.chunkLen * (2 * 2 ^ k) = 2 * (h.chunkLen * 2 ^ k) := Nat.mul_left_comm _ _ _
  rw [groupLen] at hlen
  omega

/-! ## Where subtrees start -/

theorem placed_zero (len : ℕ) : Placed h.chunkLen 0 len := by
  refine ⟨len, Nat.dvd_zero _, ?_⟩
  exact (Nat.lt_two_pow_self (n := len)).le.trans (Nat.le_mul_of_pos_left _ h.chunkLen_pos)

theorem placed_left (hlen : h.chunkLen < len) (hplaced : Placed h.chunkLen offset len) :
    Placed h.chunkLen offset (h.leftSubtreeLen len) := by
  obtain ⟨k, hdvd, hle⟩ := hplaced
  exact ⟨k, hdvd, (leftSubtreeLen_lt hlen).le.trans hle⟩

theorem placed_right (hlen : h.chunkLen < len) (hplaced : Placed h.chunkLen offset len) :
    Placed h.chunkLen (offset + h.leftSubtreeLen len) (len - h.leftSubtreeLen len) := by
  obtain ⟨k, hdvd, hle⟩ := hplaced
  obtain ⟨j, hj, hlt, hhalf⟩ := h.leftSubtreeLen_spec len hlen
  rw [hj] at hlt hhalf ⊢
  refine ⟨j, Nat.dvd_add (Nat.dvd_trans ?_ hdvd) (Nat.dvd_refl _), by omega⟩
  refine Nat.mul_dvd_mul_left _ (Nat.pow_dvd_pow 2 (Nat.not_lt.mp fun hkj => ?_))
  have hpow : h.chunkLen * 2 ^ k ≤ h.chunkLen * 2 ^ j :=
    Nat.mul_le_mul_left _ (Nat.pow_le_pow_right (by omega) hkj.le)
  omega

/-! ## The values of all subtrees -/

variable (h m)

/-- The chaining values of a subtree and of those under it, down to groups; the
subtree first, then those of its left half. -/
def chainingValues (bytes : List UInt8) (start len : ℕ) : List δ :=
  h.nonRoot (window bytes start len) start ::
    if _ : len ≤ h.groupLen m then []
    else
      chainingValues bytes start (h.leftSubtreeLen len) ++
        chainingValues bytes (start + h.leftSubtreeLen len) (len - h.leftSubtreeLen len)
termination_by len
decreasing_by
  · exact leftSubtreeLen_lt (chunkLen_lt (Nat.not_le.mp ‹_›))
  · exact Nat.sub_lt (Nat.zero_lt_of_lt (Nat.not_le.mp ‹_›))
      (leftSubtreeLen_pos (chunkLen_lt (Nat.not_le.mp ‹_›)))

/-- How many values there are for a subtree. -/
def nodeCount (len : ℕ) : ℕ := 2 * divCeil len (h.groupLen m) - 1

variable {h m} {bytes other : List UInt8} {start : ℕ}

theorem chainingValues_of_le (hlen : len ≤ h.groupLen m) :
    h.chainingValues m bytes start len = [h.nonRoot (window bytes start len) start] := by
  rw [chainingValues, dif_pos hlen]

theorem chainingValues_of_lt (hlen : h.groupLen m < len) : h.chainingValues m bytes start len =
    h.nonRoot (window bytes start len) start ::
      (h.chainingValues m bytes start (h.leftSubtreeLen len) ++
        h.chainingValues m bytes (start + h.leftSubtreeLen len) (len - h.leftSubtreeLen len)) := by
  rw [chainingValues, dif_neg (Nat.not_le.mpr hlen)]

theorem chainingValues_head : ∃ rest,
    h.chainingValues m bytes start len = h.nonRoot (window bytes start len) start :: rest := by
  rw [chainingValues]
  exact ⟨_, rfl⟩

theorem nodeCount_of_le (hpos : 0 < len) (hlen : len ≤ h.groupLen m) : h.nodeCount m len = 1 := by
  have hdiv : divCeil len (h.groupLen m) = 1 := by
    exact Nat.div_eq_of_lt_le (by omega) (by omega)
  rw [nodeCount, hdiv]

theorem nodeCount_of_lt (hlen : h.groupLen m < len) : h.nodeCount m len =
    1 + h.nodeCount m (h.leftSubtreeLen len) + h.nodeCount m (len - h.leftSubtreeLen len) := by
  have hgroup := h.groupLen_pos m
  have hlt := leftSubtreeLen_lt (chunkLen_lt hlen)
  have hpos := leftSubtreeLen_pos (chunkLen_lt hlen)
  obtain ⟨q, hq⟩ := groupLen_dvd_leftSubtreeLen hlen
  have hsum : len = h.groupLen m * q + (len - h.leftSubtreeLen len) := by omega
  have hcount : divCeil len (h.groupLen m) = q + divCeil (len - h.leftSubtreeLen len) (h.groupLen m) :=
    (congrArg (divCeil · (h.groupLen m)) hsum).trans (divCeil_mul_add hgroup q _)
  have hleft : divCeil (h.leftSubtreeLen len) (h.groupLen m) = q := by
    rw [hq, divCeil_mul hgroup]
  have hqpos : 0 < q := hleft ▸ divCeil_pos hpos hgroup
  have hright : 0 < divCeil (len - h.leftSubtreeLen len) (h.groupLen m) :=
    divCeil_pos (by omega) hgroup
  rw [nodeCount, nodeCount, nodeCount]
  omega

theorem length_chainingValues (hpos : 0 < len) :
    (h.chainingValues m bytes start len).length = h.nodeCount m len := by
  induction len using Nat.strong_induction_on generalizing start with
  | _ len ih =>
    rcases Nat.lt_or_ge (h.groupLen m) len with hlen | hlen
    · have hlt := leftSubtreeLen_lt (chunkLen_lt hlen)
      have hleft := leftSubtreeLen_pos (chunkLen_lt hlen)
      rw [chainingValues_of_lt hlen, List.length_cons, List.length_append, ih _ hlt hleft,
        ih (len - h.leftSubtreeLen len) (by omega) (by omega), nodeCount_of_lt hlen]
      omega
    · rw [chainingValues_of_le hlen, nodeCount_of_le hpos hlen]
      rfl

theorem chainingValues_congr (heq : ∀ i, start ≤ i → i < start + len → other[i]? = bytes[i]?) :
    h.chainingValues m other start len = h.chainingValues m bytes start len := by
  induction len using Nat.strong_induction_on generalizing start with
  | _ len ih =>
    have hwindow : window other start len = window bytes start len := Store.window_congr heq
    rcases Nat.lt_or_ge (h.groupLen m) len with hlen | hlen
    · have hlt := leftSubtreeLen_lt (chunkLen_lt hlen)
      have hpos := leftSubtreeLen_pos (chunkLen_lt hlen)
      have hleft := ih (h.leftSubtreeLen len) hlt fun i hi hi' => heq i hi (by omega)
      have hright : h.chainingValues m other (start + h.leftSubtreeLen len)
          (len - h.leftSubtreeLen len) = h.chainingValues m bytes (start + h.leftSubtreeLen len)
            (len - h.leftSubtreeLen len) :=
        ih _ (by omega) fun i hi hi' => heq i (by omega) (by omega)
      rw [chainingValues_of_lt hlen, chainingValues_of_lt hlen, hwindow, hleft, hright]
    · rw [chainingValues_of_le hlen, chainingValues_of_le hlen, hwindow]

theorem window_left (bytes : List UInt8) (start : ℕ) {left len : ℕ} (hle : left ≤ len) :
    (window bytes start len).take left = window bytes start left := by
  rw [window, window, List.take_take, Nat.min_eq_left hle]

theorem window_right (bytes : List UInt8) (start left len : ℕ) :
    (window bytes start len).drop left = window bytes (start + left) (len - left) := by
  rw [window, window, List.drop_take, List.drop_drop]

theorem nonRoot_window (hlen : h.chunkLen < len) (hplaced : Placed h.chunkLen start len)
    (hin : start + len ≤ bytes.length) :
    h.nonRoot (window bytes start len) start =
      h.mergeNonRoot (h.nonRoot (window bytes start (h.leftSubtreeLen len)) start)
        (h.nonRoot (window bytes (start + h.leftSubtreeLen len) (len - h.leftSubtreeLen len))
          (start + h.leftSubtreeLen len)) := by
  have hlength : (window bytes start len).length = len := Store.length_window hin
  rw [h.nonRoot_merge _ _ (hlength.symm ▸ hlen) (hlength.symm ▸ hplaced), hlength,
    window_left bytes start (leftSubtreeLen_lt hlen).le, window_right]

theorem nonRoot_eq_of_chainingValues_eq
    (heq : h.chainingValues m other start len = h.chainingValues m bytes start len) :
    h.nonRoot (window other start len) start = h.nonRoot (window bytes start len) start := by
  obtain ⟨rest, hrest⟩ := @chainingValues_head δ h m len bytes start
  obtain ⟨rest', hrest'⟩ := @chainingValues_head δ h m len other start
  rw [hrest, hrest'] at heq
  exact (List.cons.inj heq).1

theorem chainingValues_eq_of_halves (hlen : h.groupLen m < len)
    (hplaced : Placed h.chunkLen start len) (hin : start + len ≤ bytes.length)
    (hlength : other.length = bytes.length)
    (hleft : h.chainingValues m other start (h.leftSubtreeLen len) =
      h.chainingValues m bytes start (h.leftSubtreeLen len))
    (hright : h.chainingValues m other (start + h.leftSubtreeLen len) (len - h.leftSubtreeLen len) =
      h.chainingValues m bytes (start + h.leftSubtreeLen len) (len - h.leftSubtreeLen len)) :
    h.chainingValues m other start len = h.chainingValues m bytes start len := by
  have hchunk := chunkLen_lt hlen
  have hnode : h.nonRoot (window other start len) start =
      h.nonRoot (window bytes start len) start := by
    rw [nonRoot_window hchunk hplaced (by omega), nonRoot_window hchunk hplaced hin,
      nonRoot_eq_of_chainingValues_eq hleft, nonRoot_eq_of_chainingValues_eq hright]
  rw [chainingValues_of_lt hlen, chainingValues_of_lt hlen, hnode, hleft, hright]

theorem root_eq (hlen : h.chunkLen < bytes.length) :
    h.root bytes = h.mergeRoot (h.nonRoot (window bytes 0 (h.leftSubtreeLen bytes.length)) 0)
      (h.nonRoot (window bytes (h.leftSubtreeLen bytes.length)
        (bytes.length - h.leftSubtreeLen bytes.length)) (h.leftSubtreeLen bytes.length)) := by
  have hrest : window bytes (h.leftSubtreeLen bytes.length)
      (bytes.length - h.leftSubtreeLen bytes.length) =
      bytes.drop (h.leftSubtreeLen bytes.length) :=
    List.take_of_length_le (by rw [List.length_drop])
  rw [h.root_merge bytes hlen, hrest, window, List.drop_zero]

end SubtreeHash

end Sld.Hash
