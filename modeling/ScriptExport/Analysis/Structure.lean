import ScriptExport.Analysis.Options

/-!
# Structural preconditions

An analysis refuses a unit only for its structure: the unit has a file path, the options have a marker,
members stand directly in records, and scopes nest at most `maxScopes` deep. The first offending
declaration in pre-order decides the error. Everything else is reported and worked around.
-/

namespace ScriptExport

/-- Why an analysis refuses to start. -/
inductive AnalysisError where
  | missingFilePath
  | emptyMarker
  | memberOutsideRecord (kind name file : String)
  | nestingTooDeep (name : String)
deriving DecidableEq, Repr

/-- The deepest nesting of namespaces and records that is accepted. -/
def maxScopes : Nat := 256

/-- The error in words. -/
def AnalysisError.message : AnalysisError → String
  | missingFilePath => "Translation unit has no file path"
  | emptyMarker => "Annotation prefix must not be empty"
  | memberOutsideRecord kind name file =>
    kind ++ " '" ++ name ++ "' in " ++ file ++ " is declared outside of a record"
  | nestingTooDeep name =>
    "Declaration '" ++ name ++ "' nests deeper than " ++ toString maxScopes ++ " scopes"

namespace Structure

mutual

/-- Check a declaration that stands below `depth` scopes. -/
def checkDecl (file : String) (inRecord : Bool) (depth : Nat) : Decl → Except AnalysisError Unit
  | .nameSpace h decls =>
    if depth < maxScopes then checkDecls file false (depth + 1) decls
    else .error (.nestingTooDeep h.name)
  | .record h _ members =>
    if depth < maxScopes then checkDecls file true (depth + 1) members
    else .error (.nestingTooDeep h.name)
  | d =>
    if d.isMemberOnly && !inRecord then .error (.memberOutsideRecord d.kindText d.name file)
    else .ok ()

/-- Check declarations in order; the first fault counts. -/
def checkDecls (file : String) (inRecord : Bool) (depth : Nat) :
    List Decl → Except AnalysisError Unit
  | [] => .ok ()
  | d :: ds =>
    match checkDecl file inRecord depth d with
    | .error e => .error e
    | .ok _ => checkDecls file inRecord depth ds

end

end Structure

/-- Check everything that an analysis requires of its unit and options. -/
def TranslationUnit.check (u : TranslationUnit) (o : Options) : Except AnalysisError Unit :=
  if Text.isBlankText u.filePath then .error .missingFilePath
  else if Text.isBlankText o.marker then .error .emptyMarker
  else Structure.checkDecls u.filePath false 0 u.decls

end ScriptExport
