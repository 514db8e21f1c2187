/-
# `Text.Reader` — reading a sequence of items one by one

The readers of the state files walk an iterator, once over the lines of a
file and once over the fields of a line.  Both walks are the same thing:
a computation that consumes a list of texts and may stop with an error.

`Reads p ts a` says that `p` consumes exactly `ts` and returns `a`,
whatever follows.  It is closed under sequencing and under counted
repetition (`Reads.bind`, `Reads.times_map`), so the round trip of a format
is assembled from the round trips of its parts, in the order of the format.
-/
import Mathlib.Data.List.Forall2
import Sld.Text.Split

namespace Sld.Text

/-- A computation over the remaining items of an iterator. -/
abbrev Reader := StateT (List Text) (Except String)

namespace Reader

variable {α β : Type}

def next : Reader (Option Text)
  | [] => .ok (none, [])
  | t :: ts => .ok (some t, ts)

def peek : Reader (Option Text) := fun ts => .ok (ts.head?, ts)

/-- `iter.next().context(missing)?` -/
def expect (missing : String) : Reader Text
  | [] => .error missing
  | t :: ts => .ok (t, ts)

/-- `value.context(message)?` -/
def orError (message : String) : Option α → Except String α
  | some a => .ok a
  | none => .error message

/-- `text.parse().context(invalid)?` -/
def parseNumeral [Numeral α] (invalid : String) (t : Text) : Except String α :=
  orError invalid (Numeral.parse t)

/-- `iter.next().context(missing)?.parse().context(invalid)?` -/
def numeral [Numeral α] (missing invalid : String) : Reader α := do
  parseNumeral invalid (← expect missing)

/-- `for _ in 0..n { values.push(p?) }` -/
def times (p : Reader α) : Nat → Reader (List α)
  | 0 => pure []
  | n + 1 => do
      let a ← p
      let as ← times p n
      pure (a :: as)

/-- `if iter.next().is_some() { return Err(trailing) }` -/
def finish (trailing : String) : Reader Unit
  | [] => .ok ((), [])
  | _ :: _ => .error trailing

/-- Run on a whole sequence; what is left over is dropped. -/
def readAll (p : Reader α) (ts : List Text) : Except String α := (fun r => r.1) <$> p ts

/-! ## Evaluation -/

@[simp] theorem orError_some (message : String) (a : α) : orError message (some a) = .ok a := rfl

@[simp] theorem orError_none (message : String) :
    orError message (none : Option α) = .error message := rfl

theorem orError_eq_ok {message : String} {o : Option α} {a : α} :
    orError message o = .ok a ↔ o = some a := by
  cases o with
  | none => exact ⟨nofun, nofun⟩
  | some b => exact ⟨fun h => congrArg some (Except.ok.inj h), fun h => by rw [h]; rfl⟩

@[simp] theorem ok_bind (a : α) (f : α → Except String β) : (Except.ok a >>= f) = f a := rfl

@[simp] theorem ok_map (a : α) (f : α → β) :
    (f <$> (Except.ok a : Except String α)) = .ok (f a) := rfl

theorem bind_eq_ok {ε : Type} {e : Except ε α} {f : α → Except ε β} {b : β} :
    e >>= f = .ok b ↔ ∃ a, e = .ok a ∧ f a = .ok b := by
  cases e with
  | error m =>
    constructor
    · intro h; cases h
    · rintro ⟨a, h, _⟩; cases h
  | ok a =>
    constructor
    · intro h; exact ⟨a, rfl, h⟩
    · rintro ⟨a', h, hf⟩; cases h; exact hf

variable {f : α → Except String β} {l : List α} {results : List β}

theorem mem_of_mapM (h : l.mapM f = .ok results) :
    (∀ a ∈ l, ∃ b ∈ results, f a = .ok b) ∧ ∀ b ∈ results, ∃ a ∈ l, f a = .ok b := by
  induction l generalizing results with
  | nil =>
    cases h
    exact ⟨fun a ha => (by cases ha), fun b hb => (by cases hb)⟩
  | cons a l ih =>
    rw [List.mapM_cons] at h
    obtain ⟨b, hb, hrest⟩ := bind_eq_ok.1 h
    obtain ⟨bs, hbs, hok⟩ := bind_eq_ok.1 hrest
    cases hok
    obtain ⟨hleft, hright⟩ := ih hbs
    constructor
    · intro a' ha'
      cases ha' with
      | head => exact ⟨b, List.mem_cons_self, hb⟩
      | tail _ ha' =>
        obtain ⟨b', hb', heq⟩ := hleft a' ha'
        exact ⟨b', List.mem_cons_of_mem _ hb', heq⟩
    · intro b' hb'
      cases hb' with
      | head => exact ⟨a, List.mem_cons_self, hb⟩
      | tail _ hb' =>
        obtain ⟨a', ha', heq⟩ := hright b' hb'
        exact ⟨a', List.mem_cons_of_mem _ ha', heq⟩

theorem length_of_mapM (h : l.mapM f = .ok results) : results.length = l.length := by
  induction l generalizing results with
  | nil =>
    cases h
    rfl
  | cons a l ih =>
    rw [List.mapM_cons] at h
    obtain ⟨b, -, hrest⟩ := bind_eq_ok.1 h
    obtain ⟨bs, hbs, hok⟩ := bind_eq_ok.1 hrest
    cases hok
    rw [List.length_cons, List.length_cons, ih hbs]

theorem exists_mapM_eq_ok (h : ∀ a ∈ l, ∃ b, f a = .ok b) : ∃ results, l.mapM f = .ok results := by
  induction l with
  | nil => exact ⟨[], rfl⟩
  | cons a l ih =>
    obtain ⟨b, hb⟩ := h a List.mem_cons_self
    obtain ⟨bs, hbs⟩ := ih fun a ha => h a (List.mem_cons_of_mem _ ha)
    refine ⟨b :: bs, ?_⟩
    rw [List.mapM_cons, hb, hbs]
    rfl

@[simp] theorem pure_apply (a : α) (ts : List Text) : (pure a : Reader α) ts = .ok (a, ts) := rfl

@[simp] theorem bind_apply (p : Reader α) (f : α → Reader β) (ts : List Text) :
    (p >>= f) ts = p ts >>= fun r => f r.1 r.2 := rfl

@[simp] theorem map_apply (p : Reader α) (f : α → β) (ts : List Text) :
    (f <$> p) ts = (fun r => (f r.1, r.2)) <$> p ts := by
  show (do let r ← p ts; pure (f r.1, r.2)) = _
  cases p ts <;> rfl

@[simp] theorem lift_apply (e : Except String α) (ts : List Text) :
    (liftM e : Reader α) ts = (fun a => (a, ts)) <$> e := by
  cases e <;> rfl

@[simp] theorem get_apply (ts : List Text) : (get : Reader (List Text)) ts = .ok (ts, ts) := rfl

@[simp] theorem next_cons (t : Text) (ts : List Text) : next (t :: ts) = .ok (some t, ts) := rfl

@[simp] theorem expect_cons (missing : String) (t : Text) (ts : List Text) :
    expect missing (t :: ts) = .ok (t, ts) := rfl

@[simp] theorem finish_nil (trailing : String) : finish trailing [] = .ok ((), []) := rfl

@[simp] theorem parseNumeral_render [Numeral α] (invalid : String) (a : α) :
    parseNumeral invalid (Numeral.render a) = .ok a := by
  simp [parseNumeral]

@[simp] theorem numeral_cons [Numeral α] (missing invalid : String) (a : α) (ts : List Text) :
    (numeral missing invalid : Reader α) (Numeral.render a :: ts) = .ok (a, ts) := by
  simp [numeral]

variable {p : Reader α}

theorem bind_of_ok {f : α → Reader β} {ts us : List Text} {a : α}
    (h : p ts = .ok (a, us)) : (p >>= f) ts = f a us := by
  rw [bind_apply, h]; rfl

theorem readAll_split_join {sep : Char} {fs : List Text} (h : ∀ f ∈ fs, sep ∉ f)
    (hne : fs ≠ []) : readAll p (split sep (join sep fs)) = readAll p fs := by
  rw [split_join h hne]

/-! ## Consuming exactly what was written -/

/-- `p` consumes `ts` and returns `a`, whatever follows. -/
def Reads (p : Reader α) (ts : List Text) (a : α) : Prop :=
  ∀ rest, p (ts ++ rest) = .ok (a, rest)

namespace Reads

theorem pure (a : α) : Reads (Pure.pure a) [] a := fun _ => rfl

variable {a : α} {p : Reader α} {ts : List Text}

theorem bind {f : α → Reader β} {us : List Text} {b : β}
    (hp : Reads p ts a) (hf : Reads (f a) us b) : Reads (p >>= f) (ts ++ us) b := by
  intro rest
  rw [List.append_assoc, bind_of_ok (hp (us ++ rest))]
  exact hf rest

theorem cons {p : Reader α} {f : α → Reader β} {t : Text} {us : List Text} {a : α} {b : β}
    (hp : Reads p [t] a) (hf : Reads (f a) us b) : Reads (p >>= f) (t :: us) b :=
  bind hp hf

theorem map {f : α → β} (hp : Reads p ts a) : Reads (p >>= fun a => Pure.pure (f a)) ts (f a) := by
  intro rest
  rw [bind_of_ok (hp rest)]
  rfl

theorem lift {e : Except String α} (h : e = .ok a) : Reads (liftM e) [] a := by
  intro rest
  rw [h]; rfl

theorem expect (missing : String) (t : Text) : Reads (Reader.expect missing) [t] t := fun _ => rfl

theorem next (t : Text) : Reads Reader.next [t] (some t) := fun _ => rfl

variable {bs : List β}

theorem times_forall₂ {p : Reader β} (h : List.Forall₂ (fun t b => Reads p [t] b) ts bs) :
    Reads (Reader.times p ts.length) ts bs := by
  induction h with
  | nil => exact pure []
  | cons h _ ih => exact cons h (map ih)

theorem times_map {p : Reader β} {enc : β → Text} (h : ∀ b ∈ bs, Reads p [enc b] b) :
    Reads (Reader.times p bs.length) (bs.map enc) bs := by
  have hall : List.Forall₂ (fun t b => Reads p [t] b) (bs.map enc) bs := by
    rw [List.forall₂_map_left_iff, List.forall₂_same]
    exact h
  simpa using times_forall₂ hall

end Reads

end Reader

end Sld.Text
