/-
# `Text.Split` — cutting text at separators, and gluing it back

The state files are lines of tab-separated fields; one field is itself a
comma-separated list of colon-separated parts.  The functions below are
the four cuts the readers make, with the standard library's conventions:

    split(sep)      always at least one piece, pieces may be empty
    split_once(sep) the text before and after the first separator
    lines()         a line ends at `\n`; a `\r` before that `\n` is dropped
                    with it; nothing after the last `\n` is no line
    starts_with

and each has its inverse on the writing side.  A piece survives the round
trip when the separator does not occur in it; a line also has to be free
of a final `\r`, which `lines()` would eat.
-/
import Sld.Text.Numeral

namespace Sld.Text

open List (mem_append mem_cons mem_cons_of_mem mem_cons_self mem_singleton)

/-! ## Pieces -/

/-- `str::split` at one character. -/
def split (sep : Char) (t : Text) : List Text := t.splitOn sep

/-- The pieces with one separator between each two. -/
def join (sep : Char) (ts : List Text) : Text := [sep].intercalate ts

variable {sep : Char} {ts : List Text}

theorem split_join (h : ∀ t ∈ ts, sep ∉ t) (hne : ts ≠ []) : split sep (join sep ts) = ts :=
  List.splitOn_intercalate sep h hne

theorem mem_of_mem_split {c : Char} : ∀ {x t : Text}, t ∈ split sep x → c ∈ t → c ∈ x ∧ c ≠ sep
  | [], t, ht, hc => by
    rw [split, List.splitOn_nil] at ht
    rw [mem_singleton.mp ht] at hc
    cases hc
  | d :: x, t, ht, hc => by
    have hcons : split sep (d :: x) =
        if d = sep then [] :: split sep x else (split sep x).modifyHead (d :: ·) := by
      simp [split, List.splitOn, List.splitOnP_cons_eq_if_modifyHead]
    rw [hcons] at ht
    split at ht
    · rcases mem_cons.mp ht with rfl | ht
      · cases hc
      · exact ⟨mem_cons_of_mem d (mem_of_mem_split ht hc).1, (mem_of_mem_split ht hc).2⟩
    · rename_i hd
      cases hx : split sep x with
      | nil => rw [hx] at ht; cases ht
      | cons u us =>
        have hpiece : ∀ v ∈ u :: us, v ∈ split sep x := by rw [hx]; exact fun _ hv => hv
        rw [hx] at ht
        rcases mem_cons.mp ht with rfl | ht
        · rcases mem_cons.mp hc with rfl | hc
          · exact ⟨mem_cons_self, hd⟩
          · have hu := mem_of_mem_split (hpiece u mem_cons_self) hc
            exact ⟨mem_cons_of_mem d hu.1, hu.2⟩
        · have hv := mem_of_mem_split (hpiece t (mem_cons_of_mem u ht)) hc
          exact ⟨mem_cons_of_mem d hv.1, hv.2⟩

theorem mem_join {c : Char} (hc : c ≠ sep) : ∀ {ts : List Text}, c ∈ join sep ts → ∃ t ∈ ts, c ∈ t
  | [], h => by simp [join] at h
  | [t], h => ⟨t, mem_singleton.mpr rfl, by simpa [join] using h⟩
  | t :: u :: ts, h => by
    rw [join, List.intercalate_cons_cons, List.append_assoc] at h
    rcases mem_append.mp h with h | h
    · exact ⟨t, mem_cons_self, h⟩
    · rcases mem_append.mp h with h | h
      · exact absurd (mem_singleton.mp h) hc
      · obtain ⟨v, hv, hcv⟩ := mem_join hc h
        exact ⟨v, mem_cons_of_mem _ hv, hcv⟩

variable {t : Text}

theorem join_cons (h : ts ≠ []) : join sep (t :: ts) = t ++ sep :: join sep ts := by
  rw [join, List.intercalate_cons_of_ne_nil h]
  simp [join]

@[simp] theorem join_nil (sep : Char) : join sep [] = [] := rfl

@[simp] theorem join_singleton (sep : Char) (t : Text) : join sep [t] = t :=
  List.intercalate_singleton

theorem join_join (h : ts ≠ []) : join sep [t, join sep ts] = join sep (t :: ts) := by
  rw [join_cons h, join_cons (by simp), join_singleton]

theorem getLast?_join {c : Char} (hc : c ≠ sep) :
    ∀ {ts : List Text} {t : Text}, ts.getLast? = some t → t.getLast? ≠ some c →
      (join sep ts).getLast? ≠ some c
  | [], _, h, _ => by simp at h
  | [t], _, h, ht => by
    obtain rfl : t = _ := by simpa using h
    simpa [join] using ht
  | t :: u :: ts, v, h, hv => by
    have ih : (join sep (u :: ts)).getLast? ≠ some c := getLast?_join hc (by simpa using h) hv
    rw [join_cons (by simp), List.getLast?_append, List.getLast?_cons]
    intro he
    cases hj : (join sep (u :: ts)).getLast? with
    | none => rw [hj] at he; exact hc (by simpa using he.symm)
    | some d => rw [hj] at he ih; exact ih (by simpa using he)

/-! ## The first separator -/

/-- `str::split_once` at one character. -/
def splitOnce (sep : Char) : Text → Option (Text × Text)
  | [] => none
  | c :: t =>
    if c = sep then some ([], t)
    else (splitOnce sep t).map fun p => (c :: p.1, p.2)

theorem splitOnce_append : ∀ {t u : Text}, sep ∉ t → splitOnce sep (t ++ sep :: u) = some (t, u)
  | [], _, _ => by simp [splitOnce]
  | c :: t, u, h => by
    have hc : c ≠ sep := fun e => h (e ▸ mem_cons_self)
    have ht : sep ∉ t := fun e => h (mem_cons_of_mem _ e)
    rw [List.cons_append, splitOnce, if_neg hc, splitOnce_append ht]
    rfl

theorem eq_of_splitOnce : ∀ {t a b : Text}, splitOnce sep t = some (a, b) → t = a ++ sep :: b
  | [], _, _, h => absurd h (by simp [splitOnce])
  | c :: t, a, b, h => by
    rw [splitOnce] at h
    split at h
    · rename_i hc
      cases h
      rw [hc]
      rfl
    · obtain ⟨⟨a', b'⟩, hrest, heq⟩ := Option.map_eq_some_iff.mp h
      cases heq
      rw [eq_of_splitOnce hrest]
      rfl

theorem splitOnce_join (h : sep ∉ t) (hne : ts ≠ []) :
    splitOnce sep (join sep (t :: ts)) = some (t, join sep ts) := by
  rw [join_cons hne]
  exact splitOnce_append h

/-- `str::starts_with` a label and its separator. -/
def startsWith (t : Text) (label : Text) : Bool := label.isPrefixOf t

theorem startsWith_append (label t : Text) : startsWith (label ++ t) label = true :=
  List.isPrefixOf_iff_prefix.mpr (List.prefix_append _ _)

/-! ## Lines -/

/-- One terminated line without its `\n`, and without a `\r` before it. -/
def stripCr (t : Text) : Text :=
  if t.getLast? = some '\r' then t.dropLast else t

def lines (t : Text) : List Text :=
  let parts := split '\n' t
  parts.dropLast.map stripCr ++
    (match parts.getLast? with
      | some [] | none => []
      | some last => [last])

/-- `writeln!` of each line. -/
def unlines (ls : List Text) : Text := ls.flatMap (· ++ ['\n'])

@[simp] theorem unlines_nil : unlines [] = [] := rfl

@[simp] theorem unlines_append (a b : List Text) : unlines (a ++ b) = unlines a ++ unlines b :=
  List.flatMap_append

/-- A text that comes back from `lines` as it was written. -/
def IsLine (t : Text) : Prop := '\n' ∉ t ∧ t.getLast? ≠ some '\r'

theorem stripCr_of_isLine (h : IsLine t) : stripCr t = t := if_neg h.2

theorem unlines_eq_join : ∀ ls : List Text, unlines ls = join '\n' (ls ++ [[]])
  | [] => by simp [join]
  | l :: ls => by
    rw [List.cons_append, join_cons (by simp), ← unlines_eq_join ls]
    simp [unlines]

theorem lines_unlines {ls : List Text} (h : ∀ l ∈ ls, IsLine l) : lines (unlines ls) = ls := by
  have hsplit : split '\n' (unlines ls) = ls ++ [[]] := by
    rw [unlines_eq_join]
    refine split_join ?_ (by simp)
    intro t ht
    rcases mem_append.mp ht with ht | ht
    · exact (h t ht).1
    · rw [mem_singleton.mp ht]; simp
  have hmap : ls.map stripCr = ls := by
    conv_rhs => rw [← List.map_id ls]
    exact List.map_congr_left fun l hl => stripCr_of_isLine (h l hl)
  simp [lines, hsplit, hmap]

/-! ## Text fields -/

/-- A field that may stand anywhere in a line. -/
def IsField (t : Text) : Prop := '\t' ∉ t ∧ '\n' ∉ t

/-- A field free of every line break, so that it may also end its line. -/
def IsPlain (t : Text) : Prop := '\t' ∉ t ∧ '\n' ∉ t ∧ '\r' ∉ t

instance (t : Text) : Decidable (IsLine t) := inferInstanceAs (Decidable (_ ∧ _))
instance (t : Text) : Decidable (IsField t) := inferInstanceAs (Decidable (_ ∧ _))
instance (t : Text) : Decidable (IsPlain t) := inferInstanceAs (Decidable (_ ∧ _ ∧ _))

theorem IsPlain.isField (h : IsPlain t) : IsField t := ⟨h.1, h.2.1⟩

theorem IsPlain.getLast? (h : IsPlain t) : t.getLast? ≠ some '\r' :=
  fun e => h.2.2 (List.mem_of_getLast? e)

theorem isPlain_render {α : Type} [Numeral α] (a : α) : IsPlain (Numeral.render a) :=
  ⟨not_mem_render (by decide), not_mem_render (by decide), not_mem_render (by decide)⟩

theorem isLine_join {fs : List Text} (h : ∀ f ∈ fs, IsField f)
    (hlast : ∀ f, fs.getLast? = some f → f.getLast? ≠ some '\r') : IsLine (join '\t' fs) := by
  constructor
  · intro hmem
    obtain ⟨f, hf, hnf⟩ := mem_join (by decide) hmem
    exact (h f hf).2 hnf
  · cases hl : fs.getLast? with
    | none => rw [List.getLast?_eq_none_iff.mp hl]; simp [join]
    | some f => exact getLast?_join (by decide) hl (hlast f hl)

example : lines "a\r\nb\r".toList = ["a".toList, "b\r".toList] := by decide

/-! ## UTF-8 -/

/-- `str::as_bytes` -/
def utf8 (t : Text) : List UInt8 := t.flatMap String.utf8EncodeChar

def fromUtf8 (bs : List UInt8) : Option Text :=
  bs.toByteArray.utf8Decode?.map Array.toList

theorem fromUtf8_utf8 (t : Text) : fromUtf8 (utf8 t) = some t := by
  have h : (utf8 t).toByteArray = t.utf8Encode := rfl
  rw [fromUtf8, h, List.utf8Decode?_utf8Encode]
  rfl

end Sld.Text
