/-
# `Layout.RedirectResolutions` — symbols that stand for other symbols

`--defsym` and the assignments of linker scripts define symbols as another
symbol plus an offset.  When all symbols have their values, those of the
redirects are computed: one pass over the symbols that the linker and the
scripts define, in the order of their ids.  The pass is an instance of
`Sld.Store.Assignments`.
-/
import Sld.Store.Assignments
import Sld.Symbols.SymbolDb

namespace Sld.Layout

open Store (Assignment assign assignAll Solves IsSource LateSourcesSettled)
open Symbols (Bytes SymbolId)
open Function (update_of_ne update_self)

/-! ## Redirects -/

inductive RedirectKind where
  | defSym
  | script

structure Redirect where
  kind : RedirectKind
  targetName : Bytes
  offset : Int64

/-- The placements that are no redirect are one case here. -/
inductive SymbolPlacement where
  | redirect (redirect : Redirect)
  | other

section

variable (fromUtf8Lossy : Bytes → String)

def Redirect.missingTarget (redirect : Redirect) : String :=
  match redirect.kind with
  | .defSym =>
    "Symbol '" ++ fromUtf8Lossy redirect.targetName ++ "' referenced by --defsym does not exist"
  | .script =>
    "Undefined symbol '" ++ fromUtf8Lossy redirect.targetName ++ "' referenced in expression"

end

/-! ## The pass -/

structure InternalSymDefInfo where
  placement : SymbolPlacement

inductive Group where
  | prelude (symbolDefinitions : List InternalSymDefInfo)
  | objects (numSymbols : Nat)
  | linkerScripts (scripts : List (List InternalSymDefInfo))
  | syntheticSymbols (numSymbols : Nat)

/-- The symbols of a group that may be redirects, in order. -/
def Group.symbolDefinitions : Group → List InternalSymDefInfo
  | .prelude symbolDefinitions => symbolDefinitions
  | .linkerScripts scripts => scripts.flatten
  | .objects _ | .syntheticSymbols _ => []

def Group.numSymbols : Group → Nat
  | .prelude symbolDefinitions => symbolDefinitions.length
  | .linkerScripts scripts => scripts.flatten.length
  | .objects numSymbols | .syntheticSymbols numSymbols => numSymbols

/-- The symbols of all groups are numbered through. -/
def numberedDefinitions : SymbolId → List Group → List (InternalSymDefInfo × SymbolId)
  | _, [] => []
  | start, group :: groups =>
    group.symbolDefinitions.zipIdx start ++ numberedDefinitions (start + group.numSymbols) groups

structure Resolution where
  rawValue : UInt64

structure SymbolDb where
  groups : List Group
  symbolDefinitions : SymbolId → SymbolId
  getUnversioned : Bytes → Option SymbolId
  fromUtf8Lossy : Bytes → String

section

variable (db : SymbolDb)

def SymbolDb.isCanonical (symbolId : SymbolId) : Bool := db.symbolDefinitions symbolId = symbolId

def SymbolDb.definition (symbolId : SymbolId) : SymbolId :=
  db.symbolDefinitions (db.symbolDefinitions symbolId)

def updateDefsymSymbolResolution (resolutions : SymbolId → Option Resolution) (symbolId : SymbolId)
    (defInfo : InternalSymDefInfo) : Except String (SymbolId → Option Resolution) :=
  match defInfo.placement with
  | .other => pure resolutions
  | .redirect redirect =>
    if !db.isCanonical symbolId then pure resolutions
    else
      match db.getUnversioned redirect.targetName with
      | none => throw (redirect.missingTarget db.fromUtf8Lossy)
      | some targetSymbolId =>
        match resolutions (db.definition targetSymbolId), resolutions symbolId with
        | some target, some _ =>
          pure (Function.update resolutions symbolId
            (some ⟨(target.rawValue.toInt64 + redirect.offset).toUInt64⟩))
        | _, _ => pure resolutions

def updateRedirectResolutions (resolutions : SymbolId → Option Resolution) :
    Except String (SymbolId → Option Resolution) :=
  (numberedDefinitions 0 db.groups).foldlM
    (fun resolutions p => updateDefsymSymbolResolution db resolutions p.2 p.1) resolutions

/-! ## What is asked of it -/

/-- A canonical symbol is redirected to a target. -/
structure IsRedirect (symbolId : SymbolId) (redirect : Redirect) (target : SymbolId) : Prop where
  defined : (⟨.redirect redirect⟩, symbolId) ∈ numberedDefinitions 0 db.groups
  canonical : db.isCanonical symbolId = true
  target : ∃ targetSymbolId, db.getUnversioned redirect.targetName = some targetSymbolId ∧
    db.definition targetSymbolId = target

/-- Following targets never leads back. -/
def TargetsAcyclic : Prop :=
  ∀ id, ¬ Relation.TransGen (fun target id => ∃ redirect, IsRedirect db id redirect target) id id

/-- Every redirect has the value of its target plus its offset, modulo 2⁶⁴. -/
def RedirectsFollow (resolutions : SymbolId → Option Resolution) : Prop :=
  ∀ id redirect target, IsRedirect db id redirect target →
    ∀ own others, resolutions id = some own → resolutions target = some others →
      own.rawValue = others.rawValue + redirect.offset.toUInt64

def rawValues (resolutions : SymbolId → Option Resolution) (id : SymbolId) : UInt64 :=
  ((resolutions id).map (·.rawValue)).getD 0

/-- A definition as an assignment, if the symbol is canonical and it and its
target have resolutions. -/
def assignmentOf (resolutions : SymbolId → Option Resolution)
    (p : InternalSymDefInfo × SymbolId) : Option (Assignment SymbolId UInt64) :=
  match p.1.placement with
  | .other => none
  | .redirect redirect =>
    if !db.isCanonical p.2 then none
    else
      (db.getUnversioned redirect.targetName).bind fun targetSymbolId =>
        if (resolutions (db.definition targetSymbolId)).isSome && (resolutions p.2).isSome then
          some ⟨p.2, db.definition targetSymbolId, (· + redirect.offset.toUInt64)⟩
        else none

def assignments (resolutions : SymbolId → Option Resolution) : List (Assignment SymbolId UInt64) :=
  (numberedDefinitions 0 db.groups).filterMap (assignmentOf db resolutions)

/-- A redirect whose target is redirected only after it finds there the value
that the chain of targets gives. -/
def LateTargetsSettled (resolutions : SymbolId → Option Resolution) : Prop :=
  LateSourcesSettled (assignments db resolutions) (rawValues resolutions)

end

/-! ## The pass as assignments -/

theorem le_of_mem_numberedDefinitions {start : SymbolId} {groups : List Group}
    {p : InternalSymDefInfo × SymbolId} (h : p ∈ numberedDefinitions start groups) :
    start ≤ p.2 := by
  induction groups generalizing start with
  | nil => cases h
  | cons group groups ih =>
    rcases List.mem_append.mp h with h | h
    · exact List.le_snd_of_mem_zipIdx h
    · exact Nat.le_trans (Nat.le_add_right _ _) (ih h)

theorem length_symbolDefinitions_le (group : Group) :
    group.symbolDefinitions.length ≤ group.numSymbols := by
  cases group with
  | prelude symbolDefinitions => exact Nat.le_refl _
  | objects numSymbols => exact Nat.zero_le _
  | linkerScripts scripts => exact Nat.le_refl _
  | syntheticSymbols numSymbols => exact Nat.zero_le _

theorem nodup_numberedDefinitions (start : SymbolId) (groups : List Group) :
    ((numberedDefinitions start groups).map (·.2)).Nodup := by
  induction groups generalizing start with
  | nil => exact List.nodup_nil
  | cons group groups ih =>
    rw [numberedDefinitions, List.map_append, List.zipIdx_map_snd]
    refine List.nodup_append.mpr ⟨List.nodup_range', ih _, ?_⟩
    rintro id hid _ hid' rfl
    obtain ⟨p, hp, rfl⟩ := List.mem_map.mp hid'
    have hlt := (List.mem_range'_1.mp hid).2
    have hle := le_of_mem_numberedDefinitions hp
    have hlen := Nat.add_le_add_left (length_symbolDefinitions_le group) start
    exact absurd (Nat.lt_of_lt_of_le hlt hlen) (Nat.not_lt.mpr hle)

section

variable {db : SymbolDb} {resolutions after : SymbolId → Option Resolution}

/-- The same symbols have resolutions. -/
def SameShape (resolutions after : SymbolId → Option Resolution) : Prop :=
  ∀ id, (after id).isSome = (resolutions id).isSome

theorem assignmentOf_congr (h : SameShape resolutions after) :
    assignmentOf db after = assignmentOf db resolutions := by
  unfold assignmentOf
  simp only [h _]

theorem toUInt64_toInt64_add (value : UInt64) (offset : Int64) :
    (value.toInt64 + offset).toUInt64 = value + offset.toUInt64 := by
  rw [Int64.toUInt64_add, UInt64.toUInt64_toInt64]

theorem updateDefsymSymbolResolution_ok {symbolId : SymbolId} {defInfo : InternalSymDefInfo}
    (h : updateDefsymSymbolResolution db resolutions symbolId defInfo = .ok after) :
    SameShape resolutions after ∧ rawValues after =
      assignAll (rawValues resolutions) (assignmentOf db resolutions (defInfo, symbolId)).toList := by
  obtain ⟨placement⟩ := defInfo
  unfold updateDefsymSymbolResolution at h
  unfold assignmentOf
  cases placement with
  | other =>
    cases h
    exact ⟨fun _ => rfl, rfl⟩
  | redirect redirect =>
    simp only at h ⊢
    split at h
    · rename_i hcanon
      cases h
      rw [if_pos hcanon]
      exact ⟨fun _ => rfl, rfl⟩
    · rename_i hcanon
      rw [if_neg hcanon]
      split at h
      · cases h
      · rename_i targetSymbolId htarget
        rw [htarget, Option.bind_some]
        split at h
        · rename_i target own hsome hown
          cases h
          rw [if_pos (by rw [hsome, hown]; rfl)]
          constructor
          · intro id
            by_cases hid : id = symbolId
            · subst hid
              rw [update_self, hown]
              rfl
            · rw [update_of_ne hid]
          · funext id
            show rawValues _ id = assign _ _ id
            by_cases hid : id = symbolId
            · subst hid
              rw [assign, update_self, rawValues, update_self, rawValues, hsome]
              exact toUInt64_toInt64_add _ _
            · rw [assign, update_of_ne hid, rawValues, update_of_ne hid]
              rfl
        · rename_i hnone
          cases h
          refine ⟨fun _ => rfl, ?_⟩
          rw [if_neg]
          · rfl
          · intro hboth
            obtain ⟨htarget, hown⟩ := Bool.and_eq_true_iff.mp hboth
            obtain ⟨target, htarget⟩ := Option.isSome_iff_exists.mp htarget
            obtain ⟨own, hown⟩ := Option.isSome_iff_exists.mp hown
            exact hnone target own htarget hown

theorem foldlM_update_ok {definitions : List (InternalSymDefInfo × SymbolId)}
    (h : definitions.foldlM
      (fun resolutions p => updateDefsymSymbolResolution db resolutions p.2 p.1) resolutions =
        .ok after) :
    SameShape resolutions after ∧ rawValues after =
      assignAll (rawValues resolutions) (definitions.filterMap (assignmentOf db resolutions)) := by
  induction definitions generalizing resolutions with
  | nil =>
    cases h
    exact ⟨fun _ => rfl, rfl⟩
  | cons p definitions ih =>
    rw [List.foldlM_cons] at h
    cases hstep : updateDefsymSymbolResolution db resolutions p.2 p.1 with
    | error e =>
      rw [hstep] at h
      cases h
    | ok next =>
      rw [hstep] at h
      obtain ⟨hshape, hvalues⟩ := updateDefsymSymbolResolution_ok hstep
      obtain ⟨hshape', hvalues'⟩ := ih h
      refine ⟨fun id => (hshape' id).trans (hshape id), ?_⟩
      rw [hvalues', assignmentOf_congr hshape, hvalues]
      cases hassignment : assignmentOf db resolutions p with
      | none => rw [List.filterMap_cons_none hassignment]; rfl
      | some a => rw [List.filterMap_cons_some hassignment]; rfl

/-! ## The assignments are the redirects -/

variable {a : Assignment SymbolId UInt64}

theorem assignmentOf_eq_some {p : InternalSymDefInfo × SymbolId} :
    assignmentOf db resolutions p = some a ↔
      ∃ redirect targetSymbolId, p.1.placement = .redirect redirect ∧
        db.isCanonical p.2 = true ∧ db.getUnversioned redirect.targetName = some targetSymbolId ∧
        (resolutions (db.definition targetSymbolId)).isSome = true ∧
        (resolutions p.2).isSome = true ∧
        a = ⟨p.2, db.definition targetSymbolId, (· + redirect.offset.toUInt64)⟩ := by
  obtain ⟨⟨placement⟩, id⟩ := p
  unfold assignmentOf
  cases placement with
  | other =>
    constructor
    · intro h
      cases h
    · rintro ⟨redirect, -, hredirect, -⟩
      cases hredirect
  | redirect redirect =>
    simp only
    split
    · rename_i hcanon
      constructor
      · intro h
        cases h
      · rintro ⟨-, -, -, hcanon', -⟩
        rw [hcanon'] at hcanon
        cases hcanon
    · rename_i hcanon
      rw [Option.bind_eq_some_iff]
      constructor
      · rintro ⟨targetSymbolId, htarget, ha⟩
        split at ha
        · rename_i hboth
          obtain ⟨hsome, hown⟩ := Bool.and_eq_true_iff.mp hboth
          cases ha
          exact ⟨redirect, targetSymbolId, rfl, by simpa using hcanon, htarget, hsome, hown,
            rfl⟩
        · cases ha
      · rintro ⟨redirect', targetSymbolId, hredirect, -, htarget, hsome, hown, rfl⟩
        cases hredirect
        exact ⟨targetSymbolId, htarget, by rw [hsome, hown]; rfl⟩

theorem mem_assignments :
    a ∈ assignments db resolutions ↔ ∃ redirect, IsRedirect db a.dest redirect a.source ∧
      (resolutions a.dest).isSome = true ∧ (resolutions a.source).isSome = true ∧
      a.map = (· + redirect.offset.toUInt64) := by
  rw [assignments, List.mem_filterMap]
  constructor
  · rintro ⟨⟨⟨placement⟩, id⟩, hp, ha⟩
    obtain ⟨redirect, targetSymbolId, rfl, hcanon, htarget, hsome, hown, rfl⟩ :=
      assignmentOf_eq_some.mp ha
    exact ⟨redirect, ⟨hp, hcanon, targetSymbolId, htarget, rfl⟩, hown, hsome, rfl⟩
  · rintro ⟨redirect, ⟨hp, hcanon, targetSymbolId, htarget, hsource⟩, hown, hsome, hmap⟩
    obtain ⟨dest, source, map⟩ := a
    refine ⟨_, hp, assignmentOf_eq_some.mpr
      ⟨redirect, targetSymbolId, rfl, hcanon, htarget, hsource ▸ hsome, hown, ?_⟩⟩
    rw [hsource]
    exact congrArg _ hmap

theorem nodup_assignments : ((assignments db resolutions).map (·.dest)).Nodup := by
  have hsub : ((assignments db resolutions).map (·.dest)).Sublist
      ((numberedDefinitions 0 db.groups).map (·.2)) := by
    rw [assignments]
    induction numberedDefinitions 0 db.groups with
    | nil => exact List.Sublist.refl _
    | cons p definitions ih =>
      cases hp : assignmentOf db resolutions p with
      | none =>
        rw [List.filterMap_cons_none hp]
        exact ih.cons _
      | some a =>
        obtain ⟨redirect, targetSymbolId, -, -, -, -, -, rfl⟩ := assignmentOf_eq_some.mp hp
        rw [List.filterMap_cons_some hp]
        exact ih.cons_cons _
  exact hsub.nodup (nodup_numberedDefinitions 0 db.groups)

theorem redirectsFollow_iff_solves (h : SameShape resolutions after) :
    RedirectsFollow db after ↔ Solves (assignments db resolutions) (rawValues after) := by
  constructor
  · intro hfollow a ha
    obtain ⟨redirect, hredirect, hown, hsource, hmap⟩ := mem_assignments.mp ha
    rw [← h] at hown hsource
    obtain ⟨own, hown⟩ := Option.isSome_iff_exists.mp hown
    obtain ⟨others, hothers⟩ := Option.isSome_iff_exists.mp hsource
    rw [rawValues, rawValues, hown, hothers, hmap]
    exact hfollow a.dest redirect a.source hredirect own others hown hothers
  · intro hsolves id redirect target hredirect own others hown hothers
    have ha : ⟨id, target, (· + redirect.offset.toUInt64)⟩ ∈ assignments db resolutions := by
      refine mem_assignments.mpr ⟨redirect, hredirect, ?_, ?_, rfl⟩
      · rw [← h, hown]
        rfl
      · rw [← h, hothers]
        rfl
    have heq := hsolves _ ha
    rw [rawValues, rawValues, hown, hothers] at heq
    exact heq

theorem not_transGen_isSource (h : TargetsAcyclic db) (id : SymbolId) :
    ¬ Relation.TransGen (IsSource (assignments db resolutions)) id id := by
  intro hcycle
  refine h id (Relation.TransGen.mono (fun source dest hsource => ?_) id id hcycle)
  obtain ⟨a, ha, rfl, rfl⟩ := hsource
  obtain ⟨redirect, hredirect, -⟩ := mem_assignments.mp ha
  exact ⟨redirect, hredirect⟩

/-- The pass leaves every redirect with the value of its target plus its
offset exactly when each target that is redirected later than it is used has
its final value from the start. -/
theorem redirectsFollow_iff (hacyclic : TargetsAcyclic db)
    (h : updateRedirectResolutions db resolutions = .ok after) :
    RedirectsFollow db after ↔ LateTargetsSettled db resolutions := by
  obtain ⟨hshape, hvalues⟩ := foldlM_update_ok h
  rw [redirectsFollow_iff_solves hshape, hvalues]
  refine Store.solves_assignAll_iff nodup_assignments (not_transGen_isSource hacyclic) ?_
  intro a ha
  obtain ⟨redirect, -, -, -, hmap⟩ := mem_assignments.mp ha
  rw [hmap]
  exact add_left_injective _

/-! ### A redirect to a later redirect -/

/-- `a = b` and then `b = c + 8`. -/
def twoRedirects : SymbolDb where
  groups := [.prelude [⟨.other⟩, ⟨.redirect ⟨.defSym, [98], 0⟩⟩, ⟨.redirect ⟨.defSym, [99], 8⟩⟩,
    ⟨.other⟩]]
  symbolDefinitions id := id
  getUnversioned name := if name = [98] then some 2 else if name = [99] then some 3 else none
  fromUtf8Lossy _ := ""

/-- Redirects start at zero; `c` is at 4096. -/
def redirectsAtZero (id : SymbolId) : Option Resolution :=
  if id = 3 then some ⟨4096⟩ else some ⟨0⟩

theorem lt_of_isRedirect_twoRedirects {redirect : Redirect} {id target : SymbolId}
    (h : IsRedirect twoRedirects id redirect target) : id < target := by
  obtain ⟨hdef, -, targetSymbolId, htarget, rfl⟩ := h
  have hlist : numberedDefinitions 0 twoRedirects.groups =
      [(⟨.other⟩, 0), (⟨.redirect ⟨.defSym, [98], 0⟩⟩, 1), (⟨.redirect ⟨.defSym, [99], 8⟩⟩, 2),
        (⟨.other⟩, 3)] := rfl
  rcases List.mem_cons.mp hdef with h | h
  · cases h
  · rcases List.mem_cons.mp h with h | h
    · cases h
      cases htarget
      decide
    · rcases List.mem_cons.mp h with h | h
      · cases h
        cases htarget
        decide
      · cases List.mem_singleton.mp h

theorem targetsAcyclic_twoRedirects : TargetsAcyclic twoRedirects := by
  have hlt : ∀ target id, Relation.TransGen
      (fun target id => ∃ redirect, IsRedirect twoRedirects id redirect target) target id →
        id < target := by
    intro target id hchain
    induction hchain with
    | single hlast => exact lt_of_isRedirect_twoRedirects hlast.choose_spec
    | tail _ hlast ih => exact Nat.lt_trans (lt_of_isRedirect_twoRedirects hlast.choose_spec) ih
  intro id hcycle
  exact Nat.lt_irrefl _ (hlt id id hcycle)

/-- `a` is left at zero, while `b` is at 4104. -/
theorem redirect_to_later_redirect :
    TargetsAcyclic twoRedirects ∧
      ∃ after, updateRedirectResolutions twoRedirects redirectsAtZero = .ok after ∧
        ¬ RedirectsFollow twoRedirects after := by
  refine ⟨targetsAcyclic_twoRedirects, _, rfl, ?_⟩
  intro hfollow
  have hredirect : IsRedirect twoRedirects 1 ⟨.defSym, [98], 0⟩ 2 :=
    ⟨List.mem_cons_of_mem _ List.mem_cons_self, rfl, 2, rfl, rfl⟩
  have heq := hfollow 1 _ 2 hredirect ⟨0⟩ ⟨4104⟩ rfl rfl
  cases heq

theorem redirectsFollow_twoRedirects :
    ∃ after, updateRedirectResolutions twoRedirects redirectsAtZero = .ok after ∧
      (RedirectsFollow twoRedirects after ↔ LateTargetsSettled twoRedirects redirectsAtZero) :=
  ⟨_, rfl, redirectsFollow_iff targetsAcyclic_twoRedirects rfl⟩

end

end Sld.Layout
