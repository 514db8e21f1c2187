/-
# `Symbols.InputLoading` — the files of a link, loaded by several tasks

Each input is opened by a task of its own.  A task that finds a linker script
requests the inputs that the script names, one after the other, and any other
task may do something in between.  A path is requested once; the index it
gets then depends on who came first, and so may its modifiers.

What is at a path is a parameter here, as it is found with some modifiers: an
error, a script with its inputs, or any other file.  An input of a script may
be one that is not found.  A task that fails is done, with the error as the
state of its file; what it had requested is loaded all the same.

Scripts may name each other, yet loading ends (`loading_ends`).
-/
import Mathlib.Algebra.GroupWithZero.Nat
import Mathlib.Data.List.Perm.Subperm
import Mathlib.Data.Prod.Lex
import Mathlib.Logic.Relation
import Mathlib.Order.OrderIsoNat

namespace Sld.Symbols.Loading

open List (append_nil forall_mem_cons map_append map_cons mem_append mem_cons_of_mem mem_cons_self
  mem_map mem_of_getElem? sum_cons)

variable {Path Modifiers : Type}

/-! ## The tasks -/

inductive LoadedFileState (Path Modifiers : Type) where
  /-- an object, or the members of an archive -/
  | loaded (input : Path × Modifiers)
  | linkerScript (input : Path × Modifiers) (fileIndexes : List ℕ)
  | error (error : String)

/-- What opening a file gives: the inputs of a script, or nothing for another file. -/
abbrev Contents (Path Modifiers : Type) :=
  Except String (Option (List (Except String (Path × Modifiers))))

/-- A task works on an `OpenFileRequest`. -/
structure Task (Path Modifiers : Type) where
  fileIndex : ℕ
  input : Path × Modifiers
  /-- Inside a script, the inputs that are left, and the indices of those before. -/
  reading : Option (List (Except String (Path × Modifiers)) × List ℕ)

structure TemporaryState (Path Modifiers : Type) where
  /-- The requests by their indices, for `path_to_load_index` and `next_file_load_index`. -/
  requests : List (Path × Modifiers)
  tasks : List (Task Path Modifiers)
  files : List (ℕ × LoadedFileState Path Modifiers)

/-- The end of a task -/
def TemporaryState.push (s : TemporaryState Path Modifiers) (task : Task Path Modifiers)
    (others : List (Task Path Modifiers)) (state : LoadedFileState Path Modifiers) :
    TemporaryState Path Modifiers :=
  { s with tasks := others, files := s.files ++ [(task.fileIndex, state)] }

section

variable [DecidableEq Path]

def pathToLoadIndex (requests : List (Path × Modifiers)) (path : Path) : Option ℕ :=
  requests.findIdx? fun request => request.1 = path

/-- `load_input`, under the lock -/
def TemporaryState.loadInput (s : TemporaryState Path Modifiers) (input : Path × Modifiers) :
    ℕ × TemporaryState Path Modifiers :=
  match pathToLoadIndex s.requests input.1 with
  | some index => (index, s)
  | none =>
    (s.requests.length,
      { s with
        requests := s.requests ++ [input]
        tasks := s.tasks ++ [⟨s.requests.length, input, none⟩] })

/-- The requests of the command line. -/
def initialWork : List (Path × Modifiers) → List (Path × Modifiers) → List (Path × Modifiers)
  | work, [] => work
  | work, input :: inputs =>
    if (pathToLoadIndex work input.1).isSome then initialWork work inputs
    else initialWork (work ++ [input]) inputs

def TemporaryState.new (inputs : List (Path × Modifiers)) : TemporaryState Path Modifiers where
  requests := initialWork [] inputs
  tasks := (initialWork [] inputs).zipIdx.map fun request => ⟨request.2, request.1, none⟩
  files := []

variable (contents : Path → Modifiers → Contents Path Modifiers)

/-- What a task does next, in `process_and_record_open_file_request`. -/
def TemporaryState.run (s : TemporaryState Path Modifiers) (task : Task Path Modifiers)
    (others : List (Task Path Modifiers)) : TemporaryState Path Modifiers :=
  match task.reading with
  | none =>
    match contents task.input.1 task.input.2 with
    | .error error => s.push task others (.error error)
    | .ok none => s.push task others (.loaded task.input)
    | .ok (some inputs) => { s with tasks := { task with reading := some (inputs, []) } :: others }
  | some ([], fileIndexes) => s.push task others (.linkerScript task.input fileIndexes)
  | some (.error error :: _, _) => s.push task others (.error error)
  | some (.ok input :: inputs, fileIndexes) =>
    let after := { s with tasks := others : TemporaryState Path Modifiers }.loadInput input
    { after.2 with
      tasks := { task with reading := some (inputs, fileIndexes ++ [after.1]) } :: after.2.tasks }

/-- One of the tasks does something. -/
def Step (s s' : TemporaryState Path Modifiers) : Prop :=
  ∃ task others, s.tasks.Perm (task :: others) ∧ s' = s.run contents task others

def Reachable (inputs : List (Path × Modifiers)) (s : TemporaryState Path Modifiers) : Prop :=
  Relation.ReflTransGen (Step contents) (.new inputs) s

end

/-! ## The requests -/

section

variable {contents : Path → Modifiers → Contents Path Modifiers}
  {requests inputs work : List (Path × Modifiers)} {path : Path} {index : ℕ}
  {input source : Path × Modifiers} {task : Task Path Modifiers}
  {tasks others : List (Task Path Modifiers)} {files : List (ℕ × LoadedFileState Path Modifiers)}
  {s s' : TemporaryState Path Modifiers}

/-- The script that is found at the source names an input. -/
def Names (contents : Path → Modifiers → Contents Path Modifiers)
    (source input : Path × Modifiers) : Prop :=
  ∃ named, contents source.1 source.2 = .ok (some named) ∧ .ok input ∈ named

/-- A task works on a request; what is left of a script is the end of it. -/
structure Task.Reads (contents : Path → Modifiers → Contents Path Modifiers)
    (requests : List (Path × Modifiers)) (task : Task Path Modifiers) : Prop where
  request : requests[task.fileIndex]? = some task.input
  script : ∀ left fileIndexes, task.reading = some (left, fileIndexes) → ∃ before,
    contents task.input.1 task.input.2 = .ok (some (before ++ left))

theorem Task.Reads.concat (h : task.Reads contents requests) (new : Path × Modifiers) :
    task.Reads contents (requests ++ [new]) where
  request := by
    rw [List.getElem?_append_left (List.getElem?_eq_some_iff.mp h.request).1, h.request]
  script := h.script

/-- A request is for an input of the command line, or one before it named it. -/
def HasSource (contents : Path → Modifiers → Contents Path Modifiers)
    (inputs requests : List (Path × Modifiers)) : Prop :=
  ∀ (index : ℕ) (input : Path × Modifiers), requests[index]? = some input →
    input ∈ inputs ∨ ∃ other < index, ∃ source : Path × Modifiers,
      requests[other]? = some source ∧ Names contents source input

theorem HasSource.concat (h : HasSource contents inputs requests)
    (hsource : requests[index]? = some source) (hnames : Names contents source input) :
    HasSource contents inputs (requests ++ [input]) := by
  have hold {i : ℕ} {x : Path × Modifiers} (hi : requests[i]? = some x) :
      (requests ++ [input])[i]? = some x := by
    rw [List.getElem?_append_left (List.getElem?_eq_some_iff.mp hi).1, hi]
  intro i x hx
  rcases Nat.lt_or_ge i requests.length with hlt | hge
  · rw [List.getElem?_append_left hlt] at hx
    refine (h i x hx).imp_right ?_
    rintro ⟨other, hother, x', hx', hnames⟩
    exact ⟨other, hother, x', hold hx', hnames⟩
  · rw [List.getElem?_append_right hge, List.getElem?_singleton] at hx
    split at hx
    · cases hx
      exact .inr ⟨index, (List.getElem?_eq_some_iff.mp hsource).1.trans_le hge, source,
        hold hsource, hnames⟩
    · cases hx

/-- How much is left to do of what a task knows of. -/
def Task.weight (contents : Path → Modifiers → Contents Path Modifiers)
    (task : Task Path Modifiers) : ℕ :=
  match task.reading with
  | none =>
    match contents task.input.1 task.input.2 with
    | .ok (some named) => named.length + 2
    | _ => 1
  | some (left, _) => left.length + 1

theorem Task.weight_pos (task : Task Path Modifiers) : 0 < task.weight contents := by
  unfold Task.weight
  split
  · split
    · exact Nat.succ_pos _
    · exact Nat.one_pos
  · exact Nat.succ_pos _

variable [DecidableEq Path]

theorem pathToLoadIndex_eq_none :
    pathToLoadIndex requests path = none ↔ path ∉ requests.map Prod.fst := by
  rw [pathToLoadIndex, List.findIdx?_eq_none_iff, mem_map]
  constructor
  · rintro h ⟨request, hmem, rfl⟩
    exact of_decide_eq_false (h request hmem) rfl
  · intro h request hmem
    exact decide_eq_false fun hpath => h ⟨request, hmem, hpath⟩

theorem nodup_concat (h : (requests.map Prod.fst).Nodup)
    (hnew : pathToLoadIndex requests input.1 = none) :
    ((requests ++ [input]).map Prod.fst).Nodup := by
  rw [map_append, List.nodup_append']
  exact ⟨h, List.nodup_singleton _, List.disjoint_singleton.mpr (pathToLoadIndex_eq_none.mp hnew)⟩

theorem mem_of_mem_initialWork (h : input ∈ initialWork work inputs) :
    input ∈ work ∨ input ∈ inputs := by
  induction inputs generalizing work with
  | nil => exact .inl h
  | cons first inputs ih =>
    rw [initialWork] at h
    split at h
    · exact (ih h).imp_right (mem_cons_of_mem _)
    · rcases ih h with hwork | hinputs
      · refine (mem_append.mp hwork).imp_right fun hfirst => ?_
        rw [List.mem_singleton.mp hfirst]
        exact mem_cons_self
      · exact .inr (mem_cons_of_mem _ hinputs)

theorem nodup_initialWork (h : (work.map Prod.fst).Nodup) :
    ((initialWork work inputs).map Prod.fst).Nodup := by
  induction inputs generalizing work with
  | nil => exact h
  | cons input inputs ih =>
    rw [initialWork]
    split
    · exact ih h
    · rename_i hnot
      exact ih (nodup_concat h (Option.not_isSome_iff_eq_none.mp hnot))

/-- No path is requested twice. -/
structure TemporaryState.Inv (contents : Path → Modifiers → Contents Path Modifiers)
    (inputs : List (Path × Modifiers)) (s : TemporaryState Path Modifiers) : Prop where
  nodup : (s.requests.map Prod.fst).Nodup
  source : HasSource contents inputs s.requests
  tasks : ∀ task ∈ s.tasks, task.Reads contents s.requests

theorem inv_new : TemporaryState.Inv contents inputs (.new inputs) where
  nodup := nodup_initialWork List.nodup_nil
  source index input h := by
    refine .inl ((mem_of_mem_initialWork (mem_of_getElem? h)).resolve_left ?_)
    exact List.not_mem_nil
  tasks task htask := by
    obtain ⟨request, hrequest, rfl⟩ := mem_map.mp htask
    exact ⟨List.mem_zipIdx_iff_getElem?.mp hrequest, by rintro left fileIndexes ⟨⟩⟩

theorem TemporaryState.Inv.run
    (h : TemporaryState.Inv contents inputs ⟨requests, task :: others, files⟩) :
    TemporaryState.Inv contents inputs
      ((⟨requests, tasks, files⟩ : TemporaryState Path Modifiers).run contents task others) := by
  obtain ⟨hself, hothers⟩ := forall_mem_cons.mp h.tasks
  unfold TemporaryState.run
  split
  · split
    · exact ⟨h.nodup, h.source, hothers⟩
    · exact ⟨h.nodup, h.source, hothers⟩
    · rename_i named hcontents
      refine ⟨h.nodup, h.source, forall_mem_cons.mpr ⟨⟨hself.request, ?_⟩, hothers⟩⟩
      rintro left fileIndexes ⟨⟩
      exact ⟨[], hcontents⟩
  · exact ⟨h.nodup, h.source, hothers⟩
  · exact ⟨h.nodup, h.source, hothers⟩
  · rename_i input left fileIndexes hreading
    obtain ⟨before, hcontents⟩ := hself.script _ _ hreading
    have hreads (index : ℕ) :
        Task.Reads contents requests
          { task with reading := some (left, fileIndexes ++ [index]) } := by
      refine ⟨hself.request, ?_⟩
      rintro left' fileIndexes' ⟨⟩
      exact ⟨before ++ [.ok input], by rw [List.append_assoc]; exact hcontents⟩
    dsimp only [TemporaryState.loadInput]
    cases hindex : pathToLoadIndex requests input.1 with
    | some index => exact ⟨h.nodup, h.source, forall_mem_cons.mpr ⟨hreads index, hothers⟩⟩
    | none =>
      have hnames : Names contents task.input input :=
        ⟨_, hcontents, mem_append.mpr (.inr mem_cons_self)⟩
      refine ⟨nodup_concat h.nodup hindex, h.source.concat hself.request hnames,
        forall_mem_cons.mpr ⟨(hreads _).concat input, ?_⟩⟩
      refine List.forall_mem_append.mpr
        ⟨fun other hother => (hothers other hother).concat input, ?_⟩
      refine forall_mem_cons.mpr ⟨⟨List.getElem?_concat_length, ?_⟩, List.forall_mem_nil _⟩
      rintro left' fileIndexes' ⟨⟩

theorem inv_of_step (h : s.Inv contents inputs) (hstep : Step contents s s') :
    s'.Inv contents inputs := by
  obtain ⟨task, others, hperm, rfl⟩ := hstep
  exact TemporaryState.Inv.run ⟨h.nodup, h.source, fun t ht => h.tasks t (hperm.mem_iff.mpr ht)⟩

theorem inv_of_reachable (h : Reachable contents inputs s) : s.Inv contents inputs := by
  induction h with
  | refl => exact inv_new
  | tail _ hstep ih => exact inv_of_step ih hstep

/-! ## The end of loading -/

/-- A step requests a path, or there is less left to do. -/
theorem step_progress (h : Step contents s s') :
    s.requests.length < s'.requests.length ∨ s'.requests = s.requests ∧
      (s'.tasks.map (Task.weight contents)).sum < (s.tasks.map (Task.weight contents)).sum := by
  obtain ⟨task, others, hperm, rfl⟩ := h
  rw [(hperm.map (Task.weight contents)).sum_nat, map_cons, sum_cons]
  have hpush (state : LoadedFileState Path Modifiers) :
      ((s.push task others state).tasks.map (Task.weight contents)).sum <
        task.weight contents + (others.map (Task.weight contents)).sum :=
    Nat.lt_add_of_pos_left (Task.weight_pos task)
  unfold TemporaryState.run
  split
  · rename_i hreading
    split
    · exact .inr ⟨rfl, hpush _⟩
    · exact .inr ⟨rfl, hpush _⟩
    · rename_i named hcontents
      have hweight : task.weight contents = named.length + 2 := by
        rw [Task.weight, hreading]
        dsimp only
        rw [hcontents]
      rw [hweight, map_cons, sum_cons]
      exact .inr ⟨rfl, Nat.add_lt_add_right (Nat.lt_succ_self _) _⟩
  · exact .inr ⟨rfl, hpush _⟩
  · exact .inr ⟨rfl, hpush _⟩
  · rename_i input left fileIndexes hreading
    have hweight : task.weight contents = left.length + 2 := by rw [Task.weight, hreading]; rfl
    dsimp only [TemporaryState.loadInput]
    cases pathToLoadIndex s.requests input.1 with
    | some index =>
      rw [map_cons, sum_cons, hweight]
      exact .inr ⟨rfl, Nat.add_lt_add_right (Nat.lt_succ_self _) _⟩
    | none => exact .inl (by rw [List.length_append]; exact Nat.lt_succ_self _)

/-- Where the command line and the scripts name finitely many paths, loading
ends: a path is requested once. -/
theorem loading_ends {paths : List Path} (hinputs : ∀ input ∈ inputs, input.1 ∈ paths)
    (hclosed : ∀ path ∈ paths, ∀ modifiers named, contents path modifiers = .ok (some named) →
      ∀ input, .ok input ∈ named → input.1 ∈ paths) :
    ¬ ∃ run : ℕ → TemporaryState Path Modifiers, run 0 = .new inputs ∧
      ∀ n, Step contents (run n) (run (n + 1)) := by
  rintro ⟨run, hstart, hrun⟩
  have hreach : ∀ n, Reachable contents inputs (run n) := by
    intro n
    induction n with
    | zero =>
      rw [hstart]
      exact .refl
    | succ n ih => exact ih.tail (hrun n)
  have hmem (n index : ℕ) : ∀ input, (run n).requests[index]? = some input → input.1 ∈ paths := by
    induction index using Nat.strongRecOn with
    | ind index ih =>
      intro input hinput
      rcases (inv_of_reachable (hreach n)).source index input hinput with
        h | ⟨other, hother, source, hsource, named, hcontents, h⟩
      · exact hinputs input h
      · exact hclosed _ (ih other hother source hsource) _ _ hcontents input h
  have hbound (n : ℕ) : (run n).requests.length ≤ paths.length := by
    rw [← List.length_map Prod.fst]
    refine ((inv_of_reachable (hreach n)).nodup.subperm fun path hpath => ?_).length_le
    obtain ⟨input, hinput, rfl⟩ := mem_map.mp hpath
    obtain ⟨index, hindex⟩ := List.mem_iff_getElem?.mp hinput
    exact hmem n index input hindex
  refine not_strictAnti_of_wellFoundedLT (fun n => toLex (paths.length - (run n).requests.length,
    ((run n).tasks.map (Task.weight contents)).sum)) (strictAnti_nat_of_succ_lt fun n => ?_)
  rw [Prod.Lex.toLex_lt_toLex]
  rcases step_progress (hrun n) with hmore | ⟨hsame, hless⟩
  · exact .inl (Nat.sub_lt_sub_left (hmore.trans_le (hbound (n + 1))) hmore)
  · exact .inr ⟨by rw [hsame], hless⟩

/-- At 0 there is a script that names another file and itself, and an input that is not found. -/
def selfNaming (path : ℕ) (_ : Unit) : Contents ℕ Unit :=
  .ok (if path = 0 then some [.ok (1, ()), .ok (0, ()), .error "not found"] else none)

theorem selfNaming_ends : ¬ ∃ run : ℕ → TemporaryState ℕ Unit, run 0 = .new [(0, ())] ∧
    ∀ n, Step selfNaming (run n) (run (n + 1)) := by
  refine @loading_ends _ _ selfNaming [(0, ())] _ [0, 1] (by decide) ?_
  intro path hpath _ named h input hinput
  unfold selfNaming at h
  split at h
  · cases h
    rcases List.mem_cons.mp hinput with hother | hinput
    · rw [Except.ok.inj hother]
      decide
    · rcases List.mem_cons.mp hinput with hself | hmissing
      · rw [Except.ok.inj hself]
        decide
      · cases List.mem_singleton.mp hmissing
  · cases h

end

end Sld.Symbols.Loading
