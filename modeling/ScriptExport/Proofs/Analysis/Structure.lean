import ScriptExport.Proofs.Analysis.Ordering

/-!
# What the structural check refuses

The check goes down the tree with a flag and a depth and stops at the first fault. Both can be read off the
scopes around a declaration, so the check is a search through the occurrences in pre-order
(`checkDecls_eq_findSome?`): a member has to stand directly in a record, and no path may have more than
`maxScopes` scopes. The first path that has more of them ends in the scope that is one too many, since
what is inside that scope comes after it.
-/

namespace ScriptExport

/-- Whether the declaration opens a scope. -/
def Decl.isScope : Decl → Bool
  | nameSpace .. | record .. => true
  | _ => false

theorem Decl.isMemberOnly_of_isScope {d : Decl} (h : d.isScope = true) : d.isMemberOnly = false := by
  cases d <;> first | rfl | cases h

namespace Analysis

namespace Occurrence

/-- Whether the declaration stands directly in a record. -/
def inRecord (p : Occurrence) : Bool :=
  p.around.head?.any Decl.isRecord

/-- How many namespaces and records the path to the declaration has, the declaration included. -/
def nesting (p : Occurrence) : Nat :=
  (p.decl :: p.around).countP Decl.isScope

/-- The declaration may stand where it does. -/
def WellPlaced (p : Occurrence) : Prop :=
  (p.decl.isMemberOnly = true → p.inRecord = true) ∧ p.nesting ≤ 256

/-- What is wrong with where the declaration stands. -/
def fault? (file : String) (p : Occurrence) : Option AnalysisError :=
  if p.decl.isMemberOnly && !p.inRecord then
    some (.memberOutsideRecord p.decl.kindText p.decl.name file)
  else if maxScopes < p.nesting then some (.nestingTooDeep p.decl.name)
  else none

theorem fault?_eq_none_iff {file : String} {p : Occurrence} :
    p.fault? file = none ↔ p.WellPlaced := by
  unfold fault? WellPlaced maxScopes
  cases p.decl.isMemberOnly <;> cases p.inRecord <;> simp

theorem fault?_eq_some_iff {file : String} {p : Occurrence} {e : AnalysisError} :
    p.fault? file = some e ↔
      p.decl.isMemberOnly = true ∧ p.inRecord = false ∧
          e = .memberOutsideRecord p.decl.kindText p.decl.name file ∨
        (p.decl.isMemberOnly = true → p.inRecord = true) ∧ 256 < p.nesting ∧
          e = .nestingTooDeep p.decl.name := by
  unfold fault? maxScopes
  cases p.decl.isMemberOnly <;> cases p.inRecord <;> simp [eq_comm]

theorem nesting_eq (p : Occurrence) :
    p.nesting = p.around.countP Decl.isScope + if p.decl.isScope then 1 else 0 :=
  List.countP_cons

end Occurrence

/-! ## The check as a search -/

section Check

variable {file : String} {inRecord : Bool} {depth : Nat} {d : Decl}

theorem checkDecl_of_isScope (hd : d.isScope = true) :
    Structure.checkDecl file inRecord depth d =
      if depth < maxScopes then Structure.checkDecls file d.isRecord (depth + 1) d.children
      else .error (.nestingTooDeep d.name) := by
  cases d with
  | nameSpace h decls => rw [Structure.checkDecl]; rfl
  | record h traits members => rw [Structure.checkDecl]; rfl
  | _ => cases hd

theorem checkDecl_of_not_isScope (hd : d.isScope = false) :
    Structure.checkDecl file inRecord depth d =
      if d.isMemberOnly && !inRecord then .error (.memberOutsideRecord d.kindText d.name file)
      else .ok () := by
  cases d with
  | nameSpace h decls => cases hd
  | record h traits members => cases hd
  | _ => simp only [Structure.checkDecl]

end Check

/-- What the check says when a search has found this fault. -/
def checkOutcome : Option AnalysisError → Except AnalysisError Unit
  | some e => .error e
  | none => .ok ()

/-- The check finds the first fault in pre-order. The depth is the number of scopes around. -/
theorem checkDecls_eq_findSome? (file : String) (around : List Decl)
    (hscopes : ∀ d ∈ around, d.isScope = true) (hdepth : around.length ≤ maxScopes) (ds : List Decl) :
    Structure.checkDecls file (around.head?.any Decl.isRecord) around.length ds =
      checkOutcome ((occurrences around ds).findSome? (·.fault? file)) := by
  induction ds using Decl.list_induction generalizing around with
  | nil => rfl
  | cons d ds ihContents ih =>
    have hnesting : (⟨around, d⟩ : Occurrence).nesting =
        around.length + if d.isScope then 1 else 0 := by
      rw [Occurrence.nesting_eq, List.countP_eq_length.mpr hscopes]
    have hd : Structure.checkDecl file (around.head?.any Decl.isRecord) around.length d =
        checkOutcome ((occurrencesOf around d).findSome? (·.fault? file)) := by
      rw [occurrencesOf_eq, List.findSome?_cons]
      cases hscope : d.isScope with
      | true =>
        rw [hscope, if_pos rfl] at hnesting
        have hmember := Decl.isMemberOnly_of_isScope hscope
        rw [checkDecl_of_isScope hscope]
        by_cases hroom : around.length < maxScopes
        · -- a scope that has room is fine, and the search goes on inside it
          have hfault : (⟨around, d⟩ : Occurrence).fault? file = none := by
            unfold Occurrence.fault?
            dsimp only
            rw [hmember, if_neg (by simp), hnesting, if_neg (by omega)]
          have hinside := ihContents (d :: around) (List.forall_mem_cons.mpr ⟨hscope, hscopes⟩) hroom
          rw [if_pos hroom, hfault]
          exact hinside
        · have hfault : (⟨around, d⟩ : Occurrence).fault? file = some (.nestingTooDeep d.name) := by
            unfold Occurrence.fault?
            dsimp only
            rw [hmember, if_neg (by simp), hnesting, if_pos (by omega)]
          rw [if_neg hroom, hfault]
          rfl
      | false =>
        rw [hscope, if_neg (by simp)] at hnesting
        have hchildren : d.children = [] := by cases d <;> first | rfl | cases hscope
        have hfault : (⟨around, d⟩ : Occurrence).fault? file =
            if d.isMemberOnly && !around.head?.any Decl.isRecord then
              some (.memberOutsideRecord d.kindText d.name file)
            else none := by
          unfold Occurrence.fault?
          dsimp only
          rw [hnesting, if_neg (show ¬ maxScopes < around.length + 0 by omega)]
          rfl
        rw [checkDecl_of_not_isScope hscope, hchildren, hfault]
        split <;> rfl
    rw [Structure.checkDecls, occurrences, List.findSome?_append, ih around hscopes hdepth, hd]
    cases (occurrencesOf around d).findSome? (·.fault? file) <;> rfl

/-- The first path with too many scopes ends in the scope that is one too many. -/
theorem nesting_eq_of_first {ds : List Decl} {before after : List Occurrence} {p : Occurrence}
    (hsplit : occurrences [] ds = before ++ p :: after) (hbefore : ∀ q ∈ before, q.WellPlaced)
    (hdeep : 256 < p.nesting) : p.decl.isScope = true ∧ p.nesting = 257 := by
  have haround : p.around.countP Decl.isScope ≤ 256 := by
    cases hparent : p.around with
    | nil => simp
    | cons d rest =>
      have hsuffix : d :: rest <:+ p.around := ⟨[], hparent.symm⟩
      have hmem := (mem_before_of_suffix [] ds hsplit hsuffix (by simp)).1
      exact (hbefore _ hmem).2
  rw [p.nesting_eq] at hdeep ⊢
  cases hscope : p.decl.isScope with
  | true =>
    rw [hscope, if_pos rfl] at hdeep
    exact ⟨rfl, by rw [if_pos rfl]; omega⟩
  | false =>
    rw [hscope, if_neg (by simp)] at hdeep
    omega

end Analysis

open Analysis

theorem TranslationUnit.check_eq (u : TranslationUnit) (o : Options) :
    u.check o =
      if Text.isBlankText u.filePath then .error .missingFilePath
      else if Text.isBlankText o.marker then .error .emptyMarker
      else checkOutcome ((occurrences [] u.decls).findSome? (·.fault? u.filePath)) := by
  unfold TranslationUnit.check
  rw [← checkDecls_eq_findSome? u.filePath [] (by simp) (by decide) u.decls]
  rfl

/-- The outcome of a check is its fault, if there is one. -/
theorem checkOutcome_iff (fault : Option AnalysisError) :
    (checkOutcome fault = .ok () ↔ fault = none) ∧
      ∀ e, checkOutcome fault = .error e ↔ fault = some e := by
  cases fault <;> simp [checkOutcome]

/-- **The structural check is exact.** A unit is accepted exactly if its file path and the marker are not
blank, every member stands directly in a record and no path has more than 256 scopes. If it is refused
for its tree, the error is that of the first declaration in pre-order that does not stand where it may: a
member outside of a record, or the scope at level 257. -/
theorem check_stops_at_first_fault (u : TranslationUnit) (o : Options) :
    (u.check o = .ok () ↔
      Text.isBlankText u.filePath = false ∧ Text.isBlankText o.marker = false ∧
        ∀ p ∈ occurrences [] u.decls, p.WellPlaced) ∧
    ∀ e, u.check o = .error e ↔
      Text.isBlankText u.filePath = true ∧ e = .missingFilePath ∨
      Text.isBlankText u.filePath = false ∧ Text.isBlankText o.marker = true ∧ e = .emptyMarker ∨
      Text.isBlankText u.filePath = false ∧ Text.isBlankText o.marker = false ∧
        ∃ before p after, occurrences [] u.decls = before ++ p :: after ∧
          (∀ q ∈ before, q.WellPlaced) ∧
          (p.decl.isMemberOnly = true ∧ p.inRecord = false ∧
              e = .memberOutsideRecord p.decl.kindText p.decl.name u.filePath ∨
            p.decl.isScope = true ∧ p.nesting = 257 ∧ e = .nestingTooDeep p.decl.name) := by
  rw [u.check_eq]
  cases Text.isBlankText u.filePath with
  | true =>
    refine ⟨by simp, fun e => ?_⟩
    simp only [↓reduceIte, Except.error.injEq, true_and, Bool.true_eq_false, false_and, or_false]
    exact eq_comm
  | false =>
    cases Text.isBlankText o.marker with
    | true =>
      refine ⟨by simp, fun e => ?_⟩
      simp only [Bool.false_eq_true, ↓reduceIte, Except.error.injEq, true_and, Bool.true_eq_false,
        false_and, or_false, false_or]
      exact eq_comm
    | false =>
      simp only [Bool.false_eq_true, ↓reduceIte, true_and, false_and, false_or,
        checkOutcome_iff]
      refine ⟨?_, fun e => ?_⟩
      · simp only [List.findSome?_eq_none_iff, Occurrence.fault?_eq_none_iff]
      · simp only [List.findSome?_eq_some_iff, Occurrence.fault?_eq_none_iff,
          Occurrence.fault?_eq_some_iff]
        constructor
        · rintro ⟨before, p, after, hsplit, hfault | ⟨-, hdeep, he⟩, hbefore⟩
          · exact ⟨before, p, after, hsplit, hbefore, .inl hfault⟩
          · obtain ⟨hscope, hlevel⟩ := nesting_eq_of_first hsplit hbefore hdeep
            exact ⟨before, p, after, hsplit, hbefore, .inr ⟨hscope, hlevel, he⟩⟩
        · rintro ⟨before, p, after, hsplit, hbefore, hfault | ⟨hscope, hlevel, he⟩⟩
          · exact ⟨before, p, after, hsplit, .inl hfault, hbefore⟩
          · have hmember := Decl.isMemberOnly_of_isScope hscope
            refine ⟨before, p, after, hsplit, .inr ⟨fun h => ?_, by omega, he⟩, hbefore⟩
            rw [hmember] at h
            cases h

end ScriptExport
