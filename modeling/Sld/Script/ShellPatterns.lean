/-
# `Script.ShellPatterns` — what a pattern stands for

Patterns and names are bytes.  If both are UTF-8 they are compared character
by character, and byte by byte otherwise.  For the scan and the removal of
escapes the difference does not show, since no byte of a longer code is one
that means something in a pattern.
-/
import Sld.Script.GlobPatterns
import Sld.Text.Split
import Sld.Text.Wildcards

namespace Sld.Script

open Text
open List (cons_append mem_cons mem_cons_of_mem mem_cons_self mem_map mem_singleton not_mem_nil)
open Char (ofNat)

/-! ## Patterns of the shell -/

/-- `str::from_utf8` -/
def asText (name : Bytes) : Option Text :=
  (String.fromUTF8? ⟨name.toArray⟩).map String.toList

/-- The bytes of a text that is not UTF-8, as characters. -/
def byteChars (name : Bytes) : Text := name.map fun b => .ofNat b.toNat

/-- A pattern of the shell stands for a name.  They are compared character
by character, or byte by byte if one of them is not UTF-8. -/
def shellMatches (pattern name : Bytes) : Bool :=
  match asText pattern, asText name with
  | some pattern, some name => matchesTokens (shellTokens pattern) name
  | _, _ => matchesTokens (shellTokens (byteChars pattern)) (byteChars name)

/-! ## Patterns without wildcards -/

/-- The bytes that mean something in a pattern. -/
def special : Bytes := bytes "*?\\[]"

/-- A code for characters in which a byte that means something stands only for its character. -/
structure Transparent (code : Char → Bytes) (c : Char) : Prop where
  ne_nil : code c ≠ []
  of_special : c ∈ ['*', '?', '\\', '[', ']'] → code c = [c.toUInt8]
  of_not_special : c ∉ ['*', '?', '\\', '[', ']'] → ∀ b ∈ code c, b ∉ special

theorem Transparent.tail {code : Char → Bytes} {c : Char} (h : Transparent code c) :
    ∃ b bs, code c = b :: bs ∧ ∀ x ∈ bs, x ∉ special := by
  by_cases hc : c ∈ ['*', '?', '\\', '[', ']']
  · exact ⟨_, [], h.of_special hc, nofun⟩
  · cases hcode : code c with
    | nil => exact absurd hcode h.ne_nil
    | cons b bs =>
      refine ⟨b, bs, rfl, fun x hx => h.of_not_special hc x ?_⟩
      rw [hcode]
      exact mem_cons_of_mem b hx

variable {c : Char} {code : Char → Bytes}

theorem Transparent.not_backslash (h : Transparent code c)
    (hc : c ≠ '\\') : ∀ b ∈ code c, b ≠ '\\'.toUInt8 := by
  intro b hb
  by_cases hspecial : c ∈ ['*', '?', '\\', '[', ']']
  · rw [h.of_special hspecial] at hb
    rw [mem_singleton.mp hb]
    simp only [mem_cons, not_mem_nil, or_false] at hspecial
    rcases hspecial with rfl | rfl | rfl | rfl | rfl
    · decide
    · decide
    · exact absurd rfl hc
    · decide
    · decide
  · rintro rfl
    exact h.of_not_special hspecial _ hb (by decide +kernel)

variable {b : UInt8}

theorem unescapePattern_cons (h : b ≠ '\\'.toUInt8) (rest : Bytes) :
    unescapePattern (b :: rest) = b :: unescapePattern rest := by
  cases rest with
  | nil => rfl
  | cons next it => rw [unescapePattern, if_neg h]

variable {bs : Bytes}

theorem unescapePattern_append (h : ∀ b ∈ bs, b ≠ '\\'.toUInt8) (rest : Bytes) :
    unescapePattern (bs ++ rest) = bs ++ unescapePattern rest := by
  induction bs with
  | nil => rfl
  | cons b bs ih =>
    rw [cons_append, unescapePattern_cons (h b mem_cons_self),
      ih fun x hx => h x (mem_cons_of_mem b hx), cons_append]

theorem unescapePattern_escape (b : UInt8) (rest : Bytes) :
    unescapePattern ('\\'.toUInt8 :: b :: rest) = b :: unescapePattern rest := by
  rw [unescapePattern, if_pos (by decide)]

theorem ne_of_not_special (h : b ∉ special) : b ≠ '\\'.toUInt8 := by
  rintro rfl
  exact h (by decide +kernel)

variable {t : Text}

theorem unescapePattern_flatMap (h : ∀ c ∈ t, Transparent code c) :
    unescapePattern (t.flatMap code) = ((symbols t).map Symbol.value).flatMap code := by
  have hescape (h : Transparent code '\\') : code '\\' = ['\\'.toUInt8] := h.of_special (by decide)
  fun_induction symbols t with
  | case1 => rfl
  | case2 =>
    have hcode := hescape (h _ mem_cons_self)
    show unescapePattern (code '\\' ++ []) = code '\\' ++ []
    rw [hcode]
    rfl
  | case3 c pattern ih =>
    have hcode := hescape (h _ mem_cons_self)
    obtain ⟨b, bs, hb, hbs⟩ := (h c (mem_cons_of_mem _ mem_cons_self)).tail
    show unescapePattern (code '\\' ++ (code c ++ pattern.flatMap code)) =
      code c ++ ((symbols pattern).map Symbol.value).flatMap code
    rw [hcode, hb, List.singleton_append, cons_append, unescapePattern_escape,
      unescapePattern_append fun x hx => ne_of_not_special (hbs x hx),
      ih fun d hd => h d (mem_cons_of_mem _ (mem_cons_of_mem _ hd)), cons_append]
  | case4 c pattern hlast hmore ih =>
    have hc : c ≠ '\\' := by
      rintro rfl
      cases pattern with
      | nil => exact hlast rfl rfl
      | cons d pattern => exact hmore d pattern rfl rfl
    show unescapePattern (code c ++ pattern.flatMap code) =
      code c ++ ((symbols pattern).map Symbol.value).flatMap code
    rw [unescapePattern_append ((h c mem_cons_self).not_backslash hc),
      ih fun d hd => h d (mem_cons_of_mem _ hd)]

/-! ## The scan -/

theorem scanGlob_cons (h : b ∉ special) (patternType : GlobPatternType)
    (rest : Bytes) : scanGlob patternType false (b :: rest) = scanGlob patternType false rest := by
  have hstar : b ≠ '*'.toUInt8 := by
    rintro rfl
    exact h (by decide +kernel)
  have hclass : b ∉ bytes "[]?" := by
    intro hb
    refine h ?_
    have hsub : ∀ x ∈ bytes "[]?", x ∈ special := by decide +kernel
    exact hsub b hb
  rw [scanGlob, if_neg Bool.false_ne_true, if_neg (ne_of_not_special h), if_neg hstar,
    if_neg hclass]

theorem scanGlob_append (h : ∀ b ∈ bs, b ∉ special) (patternType : GlobPatternType)
    (rest : Bytes) : scanGlob patternType false (bs ++ rest) = scanGlob patternType false rest := by
  induction bs with
  | nil => rfl
  | cons b bs ih =>
    rw [cons_append, scanGlob_cons (h b mem_cons_self), ih fun x hx => h x (mem_cons_of_mem b hx)]

theorem analyzeGlobPattern_eq (pattern : Bytes) :
    analyzeGlobPattern pattern = scanGlob .exact false pattern := by
  rw [analyzeGlobPattern]
  split
  · rename_i h
    have hplain : ∀ b ∈ pattern, b ∉ special :=
      fun b hb => of_decide_eq_true (List.all_eq_true.mp h b hb)
    have hscan := scanGlob_append hplain .exact []
    rw [List.append_nil] at hscan
    exact hscan.symm
  · rfl

theorem scanGlob_nonStar (escaped : Bool) (bs : Bytes) :
    scanGlob .nonStar escaped bs = .nonStar ∨ scanGlob .nonStar escaped bs = .star := by
  induction bs generalizing escaped with
  | nil => exact .inl rfl
  | cons b bs ih =>
    rw [scanGlob]
    split
    · exact ih false
    · split
      · exact ih true
      · split
        · exact .inr rfl
        · split
          · exact ih false
          · exact ih false

variable {patternType : GlobPatternType}

theorem scanGlob_ne_exact (h : patternType ≠ .exact)
    (escaped : Bool) (bs : Bytes) : scanGlob patternType escaped bs ≠ .exact := by
  induction bs generalizing escaped patternType with
  | nil => exact h
  | cons b bs ih =>
    rw [scanGlob]
    split
    · exact ih h false
    · split
      · exact ih h true
      · split
        · exact GlobPatternType.noConfusion
        · split
          · exact ih GlobPatternType.noConfusion false
          · exact ih h false

variable {pattern : Bytes}

theorem unescapePattern_of_exact
    (h : scanGlob .exact false pattern = .exact) : unescapePattern pattern = pattern := by
  induction pattern with
  | nil => rfl
  | cons b rest ih =>
    rw [scanGlob, if_neg Bool.false_ne_true] at h
    split at h
    · exact absurd h (scanGlob_ne_exact (by decide) true rest)
    · rename_i hb
      rw [unescapePattern_cons hb, ih]
      split at h
      · cases h
      · split at h
        · exact absurd h (scanGlob_ne_exact (by decide) false rest)
        · exact h

/-- The kinds of patterns that are compared as names. -/
def GlobPatternType.IsName (patternType : GlobPatternType) : Prop :=
  patternType = .exact ∨ patternType = .escapedExact

theorem not_isName_scanGlob_nonStar (escaped : Bool) (bs : Bytes) :
    ¬(scanGlob .nonStar escaped bs).IsName := by
  rcases scanGlob_nonStar escaped bs with h | h <;> rw [h] <;> rintro (h | h) <;> cases h

theorem literals_of_scanGlob (h : ∀ c ∈ t, Transparent code c)
    (hscan : (scanGlob patternType false (t.flatMap code)).IsName) :
    ∀ s ∈ symbols t, s.IsLiteral := by
  have hescape (h : Transparent code '\\') : code '\\' = ['\\'.toUInt8] := h.of_special (by decide)
  fun_induction symbols t generalizing patternType with
  | case1 => exact fun s hs => absurd hs not_mem_nil
  | case2 =>
    intro s hs
    rw [mem_singleton.mp hs]
    refine ⟨?_, ?_, ?_⟩ <;> rintro ⟨⟩
  | case3 c pattern ih =>
    have hcode := hescape (h _ mem_cons_self)
    obtain ⟨b, bs, hb, hbs⟩ := (h c (mem_cons_of_mem _ mem_cons_self)).tail
    have hflat : ('\\' :: c :: pattern).flatMap code =
        '\\'.toUInt8 :: b :: (bs ++ pattern.flatMap code) := by
      show code '\\' ++ (code c ++ pattern.flatMap code) = _
      rw [hcode, hb]
      rfl
    rw [hflat, scanGlob, if_neg Bool.false_ne_true, if_pos (by decide), scanGlob, if_pos rfl,
      scanGlob_append hbs] at hscan
    intro s hs
    rcases mem_cons.mp hs with rfl | hs
    · refine ⟨?_, ?_, ?_⟩ <;> rintro ⟨⟩
    · exact ih (fun d hd => h d (mem_cons_of_mem _ (mem_cons_of_mem _ hd))) hscan s hs
  | case4 c pattern hlast hmore ih =>
    have hc : c ≠ '\\' := by
      rintro rfl
      cases pattern with
      | nil => exact hlast rfl rfl
      | cons d pattern => exact hmore d pattern rfl rfl
    have hcode := h c mem_cons_self
    have hflat : (c :: pattern).flatMap code = code c ++ pattern.flatMap code := rfl
    rw [hflat] at hscan
    by_cases hspecial : c ∈ ['*', '?', '\\', '[', ']']
    · rw [hcode.of_special hspecial, List.singleton_append, scanGlob,
        if_neg Bool.false_ne_true] at hscan
      simp only [mem_cons, not_mem_nil, or_false] at hspecial
      rcases hspecial with rfl | rfl | rfl | rfl | rfl
      · rw [if_neg (by decide), if_pos (by decide)] at hscan
        rcases hscan with h | h <;> cases h
      · rw [if_neg (by decide), if_neg (by decide), if_pos (by decide +kernel)] at hscan
        exact absurd hscan (not_isName_scanGlob_nonStar false _)
      · exact absurd rfl hc
      · rw [if_neg (by decide), if_neg (by decide), if_pos (by decide +kernel)] at hscan
        exact absurd hscan (not_isName_scanGlob_nonStar false _)
      · rw [if_neg (by decide), if_neg (by decide), if_pos (by decide +kernel)] at hscan
        exact absurd hscan (not_isName_scanGlob_nonStar false _)
    · rw [scanGlob_append (hcode.of_not_special hspecial)] at hscan
      intro s hs
      rcases mem_cons.mp hs with rfl | hs
      · refine ⟨?_, ?_, ?_⟩ <;> intro heq <;> cases heq <;> exact hspecial (by decide)
      · exact ih (fun d hd => h d (mem_cons_of_mem _ hd)) hscan s hs

/-! ## Characters of bytes -/

theorem toArray_eq_toByteArray (name : Bytes) :
    (⟨name.toArray⟩ : ByteArray) = name.toByteArray := by
  apply ByteArray.ext
  simp

theorem asText_utf8 (t : Text) : asText (utf8 t) = some t := by
  have hbytes : (⟨(utf8 t).toArray⟩ : ByteArray) = t.utf8Encode := toArray_eq_toByteArray (utf8 t)
  have hvalid : t.utf8Encode.IsValidUTF8 := ⟨t, rfl⟩
  rw [asText, hbytes, String.fromUTF8?, dif_pos hvalid, Option.map_some]
  congr 1
  exact String.toList_ofList

theorem eq_utf8_of_asText {name : Bytes} (h : asText name = some t) : name = utf8 t := by
  obtain ⟨s, hs, rfl⟩ := Option.map_eq_some_iff.mp h
  rw [String.fromUTF8?] at hs
  split at hs
  · rename_i hvalid
    cases hs
    have hlist : (String.fromUTF8 ⟨name.toArray⟩ hvalid).toList.utf8Encode = ⟨name.toArray⟩ :=
      String.utf8Encode_toList
    have harray : (utf8 (String.fromUTF8 ⟨name.toArray⟩ hvalid).toList).toByteArray =
        name.toByteArray := 
      hlist.trans (toArray_eq_toByteArray name)
    exact (List.toByteArray_inj.mp harray).symm
  · cases hs

theorem utf8_inj {s : Text} : utf8 s = utf8 t ↔ s = t := by
  refine ⟨fun h => ?_, fun h => h ▸ rfl⟩
  have htext := asText_utf8 s
  rw [h, asText_utf8] at htext
  exact (Option.some.inj htext).symm

theorem lt_of_special (h : b ∈ special) : b.toNat < 128 := by
  have hall : ∀ x ∈ special, x.toNat < 128 := by decide +kernel
  exact hall b h

theorem utf8EncodeChar_ascii (hb : b ∈ String.utf8EncodeChar c)
    (h : b.toNat < 128) : b = c.toUInt8 ∧ c.toNat < 128 := by
  have hvalue : c.toNat = c.val.toNat := rfl
  unfold String.utf8EncodeChar at hb
  simp only at hb
  split at hb
  · rw [mem_singleton.mp hb]
    exact ⟨rfl, by omega⟩
  · -- all other bytes are at least 128
    split at hb
    · simp only [mem_cons, not_mem_nil, or_false] at hb
      rcases hb with rfl | rfl <;> simp only [UInt8.toNat_ofNat', Nat.reducePow] at h <;> omega
    · split at hb
      · simp only [mem_cons, not_mem_nil, or_false] at hb
        rcases hb with rfl | rfl | rfl <;>
          simp only [UInt8.toNat_ofNat'] at h <;> omega
      · simp only [mem_cons, not_mem_nil, or_false] at hb
        rcases hb with rfl | rfl | rfl | rfl <;>
          simp only [UInt8.toNat_ofNat'] at h <;> omega

theorem transparent_utf8 (c : Char) : Transparent String.utf8EncodeChar c where
  ne_nil := String.utf8EncodeChar_ne_nil
  of_special h := by
    simp only [mem_cons, not_mem_nil, or_false] at h
    rcases h with rfl | rfl | rfl | rfl | rfl <;> rfl
  of_not_special h b hb hspecial := by
    obtain ⟨rfl, hlt⟩ := utf8EncodeChar_ascii hb (lt_of_special hspecial)
    have hall : ∀ x ∈ special, ofNat x.toNat ∈ ['*', '?', '\\', '[', ']'] := by
      decide +kernel
    have hvalue : c.toUInt8.toNat = c.toNat := by
      exact Nat.mod_eq_of_lt (Nat.lt_trans hlt (by decide))
    have hc := hall _ hspecial
    rw [hvalue, Char.ofNat_toNat] at hc
    exact h hc

/-- A byte as the code of a character. -/
def byteCode (c : Char) : Bytes := [c.toUInt8]

theorem toUInt8_ofNat (b : UInt8) : (ofNat b.toNat).toUInt8 = b := by
  have hlt := b.toNat_lt
  have hvalid : b.toNat.isValidChar := .inl (by omega)
  have hvalue : (ofNat b.toNat).val.toNat = b.toNat := by
    rw [ofNat, dif_pos hvalid]
    rfl
  apply UInt8.toNat.inj
  rw [Char.toUInt8, UInt32.toNat_toUInt8, hvalue]
  exact Nat.mod_eq_of_lt hlt

theorem flatMap_byteChars (name : Bytes) : (byteChars name).flatMap byteCode = name := by
  induction name with
  | nil => rfl
  | cons b name ih =>
    show (ofNat b.toNat).toUInt8 :: (byteChars name).flatMap byteCode = _
    rw [toUInt8_ofNat, ih]

theorem transparent_byteCode (b : UInt8) : Transparent byteCode (ofNat b.toNat) where
  ne_nil := List.cons_ne_nil _ _
  of_special _ := rfl
  of_not_special h x hx hspecial := by
    rw [byteCode, toUInt8_ofNat] at hx
    rw [mem_singleton.mp hx] at hspecial
    have hall : ∀ x ∈ special, ofNat x.toNat ∈ ['*', '?', '\\', '[', ']'] := by
      decide +kernel
    exact h (hall b hspecial)

theorem byteChars_flatMap (h : ∀ c ∈ t, ∃ b : UInt8, c = .ofNat b.toNat) :
    byteChars (t.flatMap byteCode) = t := by
  induction t with
  | nil => rfl
  | cons c t ih =>
    obtain ⟨b, hb⟩ := h c mem_cons_self
    show ofNat c.toUInt8.toNat :: byteChars (t.flatMap byteCode) = _
    rw [ih fun d hd => h d (mem_cons_of_mem c hd), hb, toUInt8_ofNat]

/-! ## Patterns that are compared as names -/

theorem value_mem {s : Symbol} (h : s ∈ symbols t) : s.value ∈ t := by
  fun_induction symbols t with
  | case1 => cases h
  | case2 =>
    rw [mem_singleton.mp h]
    exact mem_cons_self
  | case3 c pattern ih =>
    rcases mem_cons.mp h with rfl | h
    · exact mem_cons_of_mem _ mem_cons_self
    · exact mem_cons_of_mem _ (mem_cons_of_mem _ (ih h))
  | case4 c pattern _ _ ih =>
    rcases mem_cons.mp h with rfl | h
    · exact mem_cons_self
    · exact mem_cons_of_mem _ (ih h)

theorem matches_of_isName {code : Char → Bytes} {t name : Text}
    (h : ∀ c ∈ t, Transparent code c) (hname : (analyzeGlobPattern (t.flatMap code)).IsName)
    (hinj : ∀ u : Text, (∀ c ∈ u, c ∈ t) → (name.flatMap code = u.flatMap code ↔ name = u)) :
    matchesTokens (shellTokens t) name =
      decide (name.flatMap code = unescapePattern (t.flatMap code)) := by
  rw [analyzeGlobPattern_eq] at hname
  rw [matches_literals (literals_of_scanGlob h hname), unescapePattern_flatMap h]
  refine decide_eq_decide.mpr (hinj _ fun c hc => ?_).symm
  obtain ⟨s, hs, rfl⟩ := mem_map.mp hc
  exact value_mem hs

theorem shellMatches_of_isName (h : (analyzeGlobPattern pattern).IsName)
    (name : Bytes) : shellMatches pattern name = decide (name = unescapePattern pattern) := by
  have hbytes : matchesTokens (shellTokens (byteChars pattern)) (byteChars name) =
      decide (name = unescapePattern pattern) := by
    have hcode : ∀ c ∈ byteChars pattern, ∃ b : UInt8, c = .ofNat b.toNat := by
      intro c hc
      obtain ⟨b, _, rfl⟩ := mem_map.mp hc
      exact ⟨b, rfl⟩
    have hmatch := @matches_of_isName byteCode (byteChars pattern) (byteChars name) (fun c hc => by
        obtain ⟨b, rfl⟩ := hcode c hc
        exact transparent_byteCode b)
      (by rwa [flatMap_byteChars])
      (fun u hu => by
        refine ⟨fun heq => ?_, fun heq => heq ▸ rfl⟩
        rw [flatMap_byteChars] at heq
        rw [heq, byteChars_flatMap fun c hc => hcode c (hu c hc)])
    rwa [flatMap_byteChars, flatMap_byteChars] at hmatch
  rw [shellMatches]
  split
  · rename_i p n hp hn
    obtain rfl := eq_utf8_of_asText hp
    obtain rfl := eq_utf8_of_asText hn
    exact matches_of_isName (fun c _ => transparent_utf8 c) h fun u _ => utf8_inj
  · exact hbytes

end Sld.Script
