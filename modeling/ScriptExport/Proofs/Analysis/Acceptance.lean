import ScriptExport.Proofs.Analysis.Visits

/-!
# Accepted units

A unit is accepted if its check succeeds, and then the analysis succeeds with what the walk has
collected (`analyze_of_check`). Declarations are accepted one by one (`checkDecls_eq_ok_iff`), so
whether a list is accepted does not depend on how often or in what order its declarations stand in
it.
-/

namespace ScriptExport

open Analysis

namespace Structure

/-- A list is accepted if each of its declarations is. -/
theorem checkDecls_eq_ok_iff {file : String} {inRecord : Bool} {depth : Nat} {ds : List Decl} :
    checkDecls file inRecord depth ds = .ok () ↔
      ∀ d ∈ ds, checkDecl file inRecord depth d = .ok () := by
  induction ds with
  | nil => simp [checkDecls]
  | cons d ds ih =>
    rw [checkDecls]
    cases hd : checkDecl file inRecord depth d with
    | error e => simp [hd]
    | ok _ => simp [hd, ih]

section Declarations

variable {file : String} {inRecord : Bool} {depth : Nat}

/-- A namespace is accepted if one more scope is allowed and its contents are. -/
theorem checkDecl_nameSpace_eq_ok_iff {h : Header} {ds : List Decl} :
    checkDecl file inRecord depth (.nameSpace h ds) = .ok () ↔
      depth < maxScopes ∧ checkDecls file false (depth + 1) ds = .ok () := by
  rw [checkDecl]
  by_cases hdepth : depth < maxScopes
  · simp [hdepth]
  · simp [hdepth]

theorem checkDecl_record_eq_ok_iff {h : Header} {traits : RecordTraits} {ds : List Decl} :
    checkDecl file inRecord depth (.record h traits ds) = .ok () ↔
      depth < maxScopes ∧ checkDecls file true (depth + 1) ds = .ok () := by
  rw [checkDecl]
  by_cases hdepth : depth < maxScopes
  · simp [hdepth]
  · simp [hdepth]

/-- A declaration that is accepted in place of another one. -/
theorem checkDecls_replace {before after : List Decl} {d e : Decl}
    (h : checkDecls file inRecord depth (before ++ d :: after) = .ok ())
    (hde : checkDecl file inRecord depth d = .ok () → checkDecl file inRecord depth e = .ok ()) :
    checkDecls file inRecord depth (before ++ e :: after) = .ok () := by
  rw [checkDecls_eq_ok_iff, List.forall_mem_append, List.forall_mem_cons] at h ⊢
  obtain ⟨hbefore, hd, hafter⟩ := h
  exact ⟨hbefore, hde hd, hafter⟩

end Declarations

end Structure

variable {u : TranslationUnit}

/-- What an accepted unit requires of its declarations. -/
theorem TranslationUnit.checkDecls_of_check {o : Options} (h : u.check o = .ok ()) :
    Structure.checkDecls u.filePath false 0 u.decls = .ok () := by
  unfold TranslationUnit.check at h
  split at h
  · cases h
  · split at h
    · cases h
    · exact h

/-- With a path and a marker, only the declarations are left to check. -/
theorem TranslationUnit.check_of_checkDecls {o : Options}
    (hpath : Text.isBlankText u.filePath = false) (hmarker : Text.isBlankText o.marker = false)
    (h : Structure.checkDecls u.filePath false 0 u.decls = .ok ()) : u.check o = .ok () := by
  unfold TranslationUnit.check
  rw [hpath, hmarker, if_neg Bool.false_ne_true, if_neg Bool.false_ne_true]
  exact h

/-- Under the default options only path and declarations count. -/
theorem TranslationUnit.check_default (hpath : Text.isBlankText u.filePath = false)
    (h : Structure.checkDecls u.filePath false 0 u.decls = .ok ()) : u.check {} = .ok () :=
  check_of_checkDecls hpath (by decide) h

/-- Other declarations in place of those of an accepted unit. -/
theorem TranslationUnit.check_withDecls {o : Options} {ds : List Decl} (h : u.check o = .ok ())
    (hds : Structure.checkDecls u.filePath false 0 ds = .ok ()) :
    ({ u with decls := ds } : TranslationUnit).check o = .ok () := by
  unfold TranslationUnit.check at h ⊢
  split at h
  · cases h
  · next hpath =>
    split at h
    · cases h
    · next hmarker =>
      dsimp only
      rw [if_neg hpath, if_neg hmarker]
      exact hds

namespace Analysis

/-- The state at the end of an untraced walk. -/
def finalState (o : Options) (u : TranslationUnit) : State :=
  walk (Context.ofUnit o u) u.decls {}

/-- An untraced run is the run of its visits from an empty state. -/
theorem finalState_eq_runVisits (o : Options) (u : TranslationUnit) :
    finalState o u = runVisits (visits (Context.ofUnit o u) u.decls) {} :=
  walk_eq_runVisits _ _ _

end Analysis

theorem analyzeTraced_of_check {o : Options} (traced : Bool) (h : u.check o = .ok ()) :
    analyzeTraced o traced u = .ok ((run o traced u).result u.filePath) := by
  unfold analyzeTraced
  rw [h]
  rfl

/-- The analysis of an accepted unit succeeds with what the walk has collected. -/
theorem analyze_of_check {o : Options} (h : u.check o = .ok ()) : analyze o u = .ok
      { filePath := u.filePath
        records := (finalState o u).records.toList
        diagnostics := (finalState o u).diagnostics.toList } := by
  unfold analyze analyzeTraced
  rw [h]
  rfl

end ScriptExport
