/-
# `Store.BitPlaces` — numbers whose bits lie in several places

An encoding may split a number: each `Place` takes some consecutive bits of
it to somewhere else.  The image of a number under a place is known bit by
bit (`testBit_image`), so an image of shifted or shortened numbers is an
image of the numbers themselves.  `gather` takes the bits back from where
they went (`testBit_gather`).
-/
import Mathlib.Data.Nat.Bitwise

namespace Sld.Store

/-- Consecutive bits of a number, and where they go. -/
structure Place where
  source : ℕ
  len : ℕ
  dest : ℕ

def Place.image (place : Place) (value : ℕ) : ℕ :=
  ((value >>> place.source) % 2 ^ place.len) <<< place.dest

theorem testBit_image (place : Place) (value i : ℕ) : (place.image value).testBit i =
      (decide (place.dest ≤ i ∧ i < place.dest + place.len) &&
        value.testBit (place.source + (i - place.dest))) := by
  rw [Place.image, Nat.testBit_shiftLeft, Nat.testBit_mod_two_pow, Nat.testBit_shiftRight]
  by_cases hle : place.dest ≤ i
  · by_cases hlt : i < place.dest + place.len
    · have hlt' : i - place.dest < place.len := by omega
      simp [hle, hlt, hlt']
    · have hlt' : ¬ i - place.dest < place.len := by omega
      simp [hlt, hlt']
  · simp [hle]

theorem testBit_image_add (place : Place) (value : ℕ) {k : ℕ} (hk : k < place.len) :
    (place.image value).testBit (place.dest + k) = value.testBit (place.source + k) := by
  rw [testBit_image, decide_eq_true ⟨Nat.le_add_right _ _, Nat.add_lt_add_left hk _⟩,
    Bool.true_and, Nat.add_sub_cancel_left]

theorem testBit_image_outside (place : Place) (value : ℕ) {i : ℕ}
    (h : i < place.dest ∨ place.dest + place.len ≤ i) : (place.image value).testBit i = false := by
  rw [testBit_image, decide_eq_false (by omega), Bool.false_and]

variable (source len dest value : ℕ)

theorem bits_eq_image (a : ℕ) : (value >>> a) % 2 ^ len = Place.image ⟨a, len, 0⟩ value := rfl

theorem image_shiftRight (a : ℕ) :
    Place.image ⟨source, len, dest⟩ (value >>> a) = Place.image ⟨a + source, len, dest⟩ value := by
  show ((value >>> a) >>> source % 2 ^ len) <<< dest = _
  rw [← Nat.shiftRight_add]
  rfl

theorem range_eq_iff {value' : ℕ} {a b : ℕ} : (value >>> a) % 2 ^ len = (value' >>> b) % 2 ^ len ↔
    ∀ k < len, value.testBit (a + k) = value'.testBit (b + k) := by
  constructor
  · intro h k hk
    have hbit := congrArg (fun n => Nat.testBit n k) h
    simpa only [Nat.testBit_mod_two_pow, Nat.testBit_shiftRight, decide_eq_true hk, Bool.true_and]
      using hbit
  · intro h
    refine Nat.eq_of_testBit_eq fun k => ?_
    rw [Nat.testBit_mod_two_pow, Nat.testBit_mod_two_pow, Nat.testBit_shiftRight,
      Nat.testBit_shiftRight]
    by_cases hk : k < len
    · rw [h k hk]
    · rw [decide_eq_false hk, Bool.false_and, Bool.false_and]

theorem image_mod_two_pow (w : ℕ) : Place.image ⟨source, len, dest⟩ (value % 2 ^ w) =
      Place.image ⟨source, min len (w - source), dest⟩ value := by
  refine Nat.eq_of_testBit_eq fun i => ?_
  rw [testBit_image, testBit_image, Nat.testBit_mod_two_pow, ← Bool.and_assoc, ← Bool.decide_and]
  refine congrArg (· && _) (decide_eq_decide.2 ?_)
  show (dest ≤ i ∧ i < dest + len) ∧ source + (i - dest) < w ↔
    dest ≤ i ∧ i < dest + min len (w - source)
  omega

theorem mod_two_pow_image (w : ℕ) : Place.image ⟨source, len, dest⟩ value % 2 ^ w =
      Place.image ⟨source, min len (w - dest), dest⟩ value := by
  refine Nat.eq_of_testBit_eq fun i => ?_
  rw [Nat.testBit_mod_two_pow, testBit_image, testBit_image, ← Bool.and_assoc, ← Bool.decide_and]
  refine congrArg (· && _) (decide_eq_decide.2 ?_)
  show i < w ∧ dest ≤ i ∧ i < dest + len ↔ dest ≤ i ∧ i < dest + min len (w - dest)
  omega

theorem shiftLeft_eq_image {w d : ℕ} (h : value < 2 ^ w) :
    value <<< d = Place.image ⟨0, w, d⟩ value := by
  show _ = (value >>> 0 % 2 ^ w) <<< d
  rw [Nat.shiftRight_zero, Nat.mod_eq_of_lt h]

theorem image_image {n : ℕ} (h : source ≤ n) (m : ℕ) :
    Place.image ⟨source, len, dest⟩ (Place.image ⟨n, m, n⟩ value) =
      Place.image ⟨n, min m (len + source - n), dest + (n - source)⟩ value := by
  refine Nat.eq_of_testBit_eq fun i => ?_
  rw [testBit_image, testBit_image, testBit_image, ← Bool.and_assoc, ← Bool.decide_and]
  by_cases hi : dest + (n - source) ≤ i
  · have hbit : n + (source + (i - dest) - n) = n + (i - (dest + (n - source))) := by omega
    show (_ && value.testBit (n + (source + (i - dest) - n))) = _
    rw [hbit]
    refine congrArg (· && _) (decide_eq_decide.2 ?_)
    show (dest ≤ i ∧ i < dest + len) ∧ n ≤ source + (i - dest) ∧ source + (i - dest) < n + m ↔
      dest + (n - source) ≤ i ∧ i < dest + (n - source) + min m (len + source - n)
    omega
  · rw [decide_eq_false, decide_eq_false]
    · rfl
    · exact fun h => hi h.1
    · show ¬ ((dest ≤ i ∧ i < dest + len) ∧ n ≤ source + (i - dest) ∧ source + (i - dest) < n + m)
      omega

/-! ## Taking the bits back -/

/-- The bits at some places, each where it came from. -/
def gather (places : List Place) (word : ℕ) : ℕ :=
  places.foldr
    (fun place value => Place.image ⟨place.dest, place.len, place.source⟩ word ||| value) 0

@[simp] theorem gather_nil (word : ℕ) : gather [] word = 0 := rfl

@[simp] theorem gather_cons (place : Place) (places : List Place) (word : ℕ) :
    gather (place :: places) word =
      Place.image ⟨place.dest, place.len, place.source⟩ word ||| gather places word := rfl

/-- A bit of the number and the bit of the word that it becomes. -/
def Place.Sends (place : Place) (i j : ℕ) : Prop :=
  (place.source ≤ i ∧ i < place.source + place.len) ∧ j = place.dest + (i - place.source)

instance (place : Place) (i j : ℕ) : Decidable (place.Sends i j) :=
  inferInstanceAs (Decidable (_ ∧ _))

def Pair (places : List Place) (i j : ℕ) : Prop := ∃ place ∈ places, place.Sends i j

instance (places : List Place) (i j : ℕ) : Decidable (Pair places i j) :=
  inferInstanceAs (Decidable (∃ place ∈ places, _))

theorem testBit_image_iff (place : Place) (value j : ℕ) :
    (place.image value).testBit j = true ↔ ∃ i, place.Sends i j ∧ value.testBit i = true := by
  rw [testBit_image, Bool.and_eq_true, decide_eq_true_eq]
  constructor
  · rintro ⟨⟨hle, hlt⟩, hbit⟩
    refine ⟨_, ⟨⟨Nat.le_add_right _ _, ?_⟩, ?_⟩, hbit⟩
    · exact Nat.add_lt_add_left (by omega) _
    · rw [Nat.add_sub_cancel_left, Nat.add_sub_cancel' hle]
  · rintro ⟨i, ⟨⟨hle, hlt⟩, rfl⟩, hbit⟩
    refine ⟨⟨Nat.le_add_right _ _, Nat.add_lt_add_left (by omega) _⟩, ?_⟩
    rwa [Nat.add_sub_cancel_left, Nat.add_sub_cancel' hle]

theorem testBit_gather (places : List Place) (word i : ℕ) :
    (gather places word).testBit i = true ↔ ∃ j, Pair places i j ∧ word.testBit j = true := by
  induction places with
  | nil =>
    rw [gather_nil, Nat.zero_testBit]
    refine ⟨fun h => absurd h Bool.false_ne_true, ?_⟩
    rintro ⟨j, ⟨place, hmem, -⟩, -⟩
    cases hmem
  | cons place places ih =>
    rw [gather_cons, Nat.testBit_or, Bool.or_eq_true, ih, testBit_image, Bool.and_eq_true,
      decide_eq_true_eq]
    constructor
    · rintro (⟨hrange, hbit⟩ | ⟨j, ⟨place', hmem, hpair⟩, hbit⟩)
      · exact ⟨_, ⟨place, List.mem_cons_self, hrange, rfl⟩, hbit⟩
      · exact ⟨j, ⟨place', List.mem_cons_of_mem _ hmem, hpair⟩, hbit⟩
    · rintro ⟨j, ⟨place', hmem, hrange, rfl⟩, hbit⟩
      rcases List.mem_cons.1 hmem with rfl | hmem
      · exact .inl ⟨hrange, hbit⟩
      · exact .inr ⟨_, ⟨place', hmem, hrange, rfl⟩, hbit⟩

theorem testBit_gather_of_pair {places : List Place} {word i j : ℕ} (h : Pair places i j)
    (hunique : ∀ j', Pair places i j' → j' = j) :
    (gather places word).testBit i = word.testBit j := by
  rw [Bool.eq_iff_iff, testBit_gather]
  constructor
  · rintro ⟨j', hpair, hbit⟩
    rwa [hunique j' hpair] at hbit
  · exact fun hbit => ⟨j, h, hbit⟩

end Sld.Store
